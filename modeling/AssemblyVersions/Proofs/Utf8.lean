import AssemblyVersions.Text.Utf8
import Mathlib

/-!
Decoding inverts encoding, and an ASCII character cuts content and text at the same place: an octet
below 128 never continues a character, so whatever was owed before it ends there.
-/

set_option autoImplicit false

namespace AssemblyVersions

theorem first_cut {α : Type} {mark : α} {a b x y : List α} (left : mark ∉ a) (right : mark ∉ b)
    (same : a ++ mark :: x = b ++ mark :: y) : a = b ∧ x = y := by
  induction a generalizing b with
  | nil =>
      cases b with
      | nil => simpa using same
      | cons d b => exact absurd (by simp_all) right
  | cons c a ih =>
      cases b with
      | nil => exact absurd (by simp_all) left
      | cons d b =>
          simp only [List.cons_append, List.cons.injEq, List.mem_cons, not_or] at same left right
          obtain ⟨atLeft, atRight⟩ := ih left.2 right.2 same.2
          exact ⟨by rw [same.1, atLeft], atRight⟩

namespace Utf8

-- The null character is left out, since it also stands for code points that are no characters.
def Ascii (c : Char) : Prop := 0 < c.toNat ∧ c.toNat < 128

instance (c : Char) : Decidable (Ascii c) := inferInstanceAs (Decidable (_ ∧ _))

def octet (c : Char) : UInt8 := UInt8.ofNat c.toNat

theorem octet_to_nat {c : Char} (ascii : Ascii c) : (octet c).toNat = c.toNat := by
  have bound := ascii.2
  simp only [octet, UInt8.toNat_ofNat']
  omega

theorem eq_octet {c : Char} (ascii : Ascii c) {byte : UInt8} (same : byte.toNat = c.toNat) :
    byte = octet c :=
  UInt8.toNat_inj.mp (same.trans (octet_to_nat ascii).symm)

theorem encode_ascii {c : Char} (ascii : Ascii c) (text : Text) :
    encode (c :: text) = octet c :: encode text := by
  have small : c.toNat ≤ 127 := Nat.lt_succ_iff.mp ascii.2
  simp [encode, String.utf8EncodeChar, small, octet]

def Sound : Owed → Prop
  | .first => True
  | .next more least _ bits =>
      128 ≤ least.toNat ∧ 128 ≤ (bits * 64 + (least.toNat - 128)) * 64 ^ more

theorem begin_eq (byte : UInt8) :
    begin byte =
      if byte.toNat < 128 then ([some (Char.ofNat byte.toNat)], .first)
      else if byte.toNat < 194 then ([none], .first)
      else if byte.toNat < 224 then ([], .next 0 0x80 0xBF (byte.toNat - 192))
      else if byte.toNat = 224 then ([], .next 1 0xA0 0xBF 0)
      else if byte.toNat = 237 then ([], .next 1 0x80 0x9F 13)
      else if byte.toNat < 240 then ([], .next 1 0x80 0xBF (byte.toNat - 224))
      else if byte.toNat = 240 then ([], .next 2 0x90 0xBF 0)
      else if byte.toNat < 244 then ([], .next 2 0x80 0xBF (byte.toNat - 240))
      else if byte.toNat = 244 then ([], .next 2 0x80 0x8F 4)
      else ([none], .first) := by
  simp only [begin, UInt8.lt_iff_toNat_lt, ← UInt8.toNat_inj, UInt8.reduceToNat]

theorem begin_ascii {byte : UInt8} (small : byte.toNat < 128) :
    begin byte = ([some (Char.ofNat byte.toNat)], .first) := by
  rw [begin_eq, if_pos small]

theorem begin_sound (byte : UInt8) : Sound (begin byte).2 := by
  rw [begin_eq]
  split_ifs <;> simp [Sound] <;> omega

theorem read_of_begin {byte : UInt8} {c : Char} (read : some c ∈ (begin byte).1) :
    byte.toNat < 128 ∧ c = Char.ofNat byte.toNat := by
  rw [begin_eq] at read
  split_ifs at read <;> simp_all

theorem step_sound {owed : Owed} (sound : Sound owed) (byte : UInt8) : Sound (step owed byte).2 := by
  cases owed with
  | first => exact begin_sound byte
  | next more least greatest bits =>
      simp only [step]
      split
      · rename_i within
        have low := UInt8.le_iff_toNat_le.mp within.1
        cases more with
        | zero => trivial
        | succ more =>
            refine ⟨by decide, ?_⟩
            have grown := sound.2
            calc 128 ≤ (bits * 64 + (least.toNat - 128)) * 64 ^ (more + 1) := grown
              _ ≤ (bits * 64 + (byte.toNat - 128)) * 64 ^ (more + 1) := by gcongr
              _ = _ := by simp [pow_succ]; ring
      · exact begin_sound byte

theorem step_ascii {owed : Owed} (sound : Sound owed) {byte : UInt8} (small : byte.toNat < 128) :
    step owed byte = (readFrom owed [] ++ [some (Char.ofNat byte.toNat)], .first) := by
  cases owed with
  | first => simp [step, readFrom, begin_ascii small]
  | next more least greatest bits =>
      have refused : ¬ (least ≤ byte ∧ byte ≤ greatest) := by
        rintro ⟨low, -⟩
        have low := UInt8.le_iff_toNat_le.mp low
        have high := sound.1
        omega
      simp [step, refused, readFrom, begin_ascii small]

theorem read_of_step {owed : Owed} (sound : Sound owed) {byte : UInt8} {c : Char}
    (ascii : Ascii c) (read : some c ∈ (step owed byte).1) : byte = octet c := by
  have began {byte : UInt8} (read : some c ∈ (begin byte).1) : byte = octet c := by
    obtain ⟨small, same⟩ := read_of_begin read
    apply eq_octet ascii
    rw [same, Char.toNat_ofNat, if_pos (Or.inl (by omega))]
  cases owed with
  | first => exact began read
  | next more least greatest bits =>
      simp only [step] at read
      split at read
      · rename_i within
        have low := UInt8.le_iff_toNat_le.mp within.1
        cases more with
        | zero =>
            have same : c = Char.ofNat (bits * 64 + (byte.toNat - 128)) := by simpa using read
            have large := sound.2
            have valid := ascii
            rw [same, Ascii, Char.toNat_ofNat] at valid
            split at valid <;> omega
        | succ more => simp at read
      · exact began (by simpa using read)

theorem read_of_read_from {owed : Owed} (sound : Sound owed) {bytes : Bytes} {c : Char}
    (ascii : Ascii c) (read : some c ∈ readFrom owed bytes) : octet c ∈ bytes := by
  induction bytes generalizing owed with
  | nil => cases owed <;> simp [readFrom] at read
  | cons byte rest ih =>
      rw [readFrom, List.mem_append] at read
      rcases read with now | later
      · exact List.mem_cons.mpr (Or.inl (read_of_step sound ascii now).symm)
      · exact List.mem_cons_of_mem byte (ih (step_sound sound byte) later)

theorem read_from_append (owed : Owed) (sound : Sound owed) {byte : UInt8} (small : byte.toNat < 128)
    (left right : Bytes) :
    readFrom owed (left ++ byte :: right) =
      readFrom owed left ++ some (Char.ofNat byte.toNat) :: read right := by
  induction left generalizing owed with
  | nil =>
      rw [List.nil_append, readFrom, step_ascii sound small]
      simp [read]
  | cons first left ih =>
      rw [List.cons_append, readFrom, readFrom, ih _ (step_sound sound first), List.append_assoc]

theorem read_from_eq_nil {owed : Owed} {bytes : Bytes} (empty : readFrom owed bytes = []) :
    owed = .first ∧ bytes = [] := by
  induction bytes generalizing owed with
  | nil => cases owed <;> simp_all [readFrom]
  | cons byte rest ih =>
      rw [readFrom, List.append_eq_nil_iff] at empty
      obtain ⟨silent, done⟩ := empty
      obtain ⟨first, -⟩ := ih done
      exfalso
      cases owed with
      | first =>
          simp only [step, begin_eq] at silent first
          split_ifs at silent <;> simp_all
      | next more least greatest bits =>
          simp only [step] at silent first
          split at silent
          · cases more <;> simp_all
          · simp at silent

theorem decode_append {c : Char} (ascii : Ascii c) (left right : Bytes) :
    decode (left ++ octet c :: right) = decode left ++ c :: decode right := by
  have small : (octet c).toNat < 128 := by rw [octet_to_nat ascii]; exact ascii.2
  simp only [decode, read, read_from_append .first trivial small, List.map_append, List.map_cons,
    octet_to_nat ascii, Char.ofNat_toNat, Option.getD_some]

theorem mem_decode {c : Char} (ascii : Ascii c) {bytes : Bytes} :
    c ∈ decode bytes ↔ octet c ∈ bytes := by
  constructor
  · intro present
    obtain ⟨read, among, same⟩ := List.mem_map.mp present
    cases read with
    | none =>
        -- The replacement character is not ASCII.
        have bound := ascii.2
        rw [← same] at bound
        exact absurd bound (by decide)
    | some d =>
        have same : d = c := same
        subst same
        have start : Sound .first := trivial
        exact read_of_read_from start ascii among
  · intro present
    obtain ⟨left, right, rfl⟩ := List.append_of_mem present
    simp [decode_append ascii]

theorem decode_eq_nil {bytes : Bytes} (empty : decode bytes = []) : bytes = [] :=
  (read_from_eq_nil (List.map_eq_nil_iff.mp empty)).2

theorem decode_eq_append {c : Char} (ascii : Ascii c) {bytes : Bytes} {left right : Text}
    (absent : c ∉ left) (same : decode bytes = left ++ c :: right) :
    ∃ before after, bytes = before ++ octet c :: after ∧ octet c ∉ before ∧
      decode before = left ∧ decode after = right := by
  have present : octet c ∈ bytes := (mem_decode ascii).mp (by simp [same])
  obtain ⟨before, after, split, first⟩ := List.eq_append_cons_of_mem present
  have clear : c ∉ decode before := fun early => first ((mem_decode ascii).mp early)
  rw [split, decode_append ascii] at same
  obtain ⟨atLeft, atRight⟩ := first_cut clear absent same
  exact ⟨before, after, split, first, atLeft, atRight⟩

theorem decode_eq_cons {c : Char} (ascii : Ascii c) {bytes : Bytes} {rest : Text}
    (same : decode bytes = c :: rest) :
    ∃ after, bytes = octet c :: after ∧ decode after = rest := by
  have cut : decode bytes = [] ++ c :: rest := same
  obtain ⟨before, after, split, -, empty, tail⟩ := decode_eq_append ascii List.not_mem_nil cut
  rw [decode_eq_nil empty, List.nil_append] at split
  exact ⟨after, split, tail⟩

theorem decode_eq_ascii_append {lead : Text} (ascii : ∀ c ∈ lead, Ascii c) {bytes : Bytes}
    {rest : Text} (same : decode bytes = lead ++ rest) :
    ∃ after, bytes = encode lead ++ after ∧ decode after = rest := by
  induction lead generalizing bytes with
  | nil => exact ⟨bytes, rfl, same⟩
  | cons c lead ih =>
      have now := ascii c List.mem_cons_self
      obtain ⟨next, split, tail⟩ := decode_eq_cons now same
      obtain ⟨after, more, done⟩ := ih (fun d among => ascii d (List.mem_cons_of_mem c among)) tail
      exact ⟨after, by rw [split, more, encode_ascii now, List.cons_append], done⟩

theorem read_from_last {least greatest byte : UInt8} (bits : Nat)
    (within : least ≤ byte ∧ byte ≤ greatest) (rest : Bytes) :
    readFrom (.next 0 least greatest bits) (byte :: rest) =
      some (Char.ofNat (bits * 64 + (byte.toNat - 128))) :: readFrom .first rest := by
  simp [readFrom, step, within]

theorem read_from_more {least greatest byte : UInt8} (more bits : Nat)
    (within : least ≤ byte ∧ byte ≤ greatest) (rest : Bytes) :
    readFrom (.next (more + 1) least greatest bits) (byte :: rest) =
      readFrom (.next more 0x80 0xBF (bits * 64 + (byte.toNat - 128))) rest := by
  simp [readFrom, step, within]

theorem read_from_led {byte : UInt8} {owed : Owed} (led : begin byte = ([], owed)) (rest : Bytes) :
    readFrom .first (byte :: rest) = readFrom owed rest := by
  simp [readFrom, step, led]

theorem continuation_within (n : Nat) :
    (0x80 : UInt8) ≤ UInt8.ofNat (n % 64 + 128) ∧ UInt8.ofNat (n % 64 + 128) ≤ (0xBF : UInt8) := by
  simp only [UInt8.le_iff_toNat_le, UInt8.toNat_ofNat', UInt8.reduceToNat]
  omega

theorem continuation_to_nat (n : Nat) : (UInt8.ofNat (n % 64 + 128)).toNat - 128 = n % 64 := by
  simp only [UInt8.toNat_ofNat']
  omega

theorem begin_two {v : Nat} (above : 0x7F < v) (below : v ≤ 0x7FF) :
    begin (UInt8.ofNat (v / 64 % 32 + 192)) = ([], .next 0 0x80 0xBF (v / 64)) := by
  have lead : (UInt8.ofNat (v / 64 % 32 + 192)).toNat = v / 64 + 192 := by
    simp only [UInt8.toNat_ofNat']; omega
  rw [begin_eq, lead, if_neg (by omega), if_neg (by omega), if_pos (by omega), Nat.add_sub_cancel]

theorem begin_three {v : Nat} (above : 0x7FF < v) (below : v ≤ 0xFFFF)
    (valid : v < 0xD800 ∨ 0xDFFF < v) :
    ∃ least greatest, begin (UInt8.ofNat (v / 4096 % 16 + 224)) =
        ([], .next 1 least greatest (v / 4096)) ∧
      least ≤ UInt8.ofNat (v / 64 % 64 + 128) ∧ UInt8.ofNat (v / 64 % 64 + 128) ≤ greatest := by
  have lead : (UInt8.ofNat (v / 4096 % 16 + 224)).toNat = v / 4096 + 224 := by
    simp only [UInt8.toNat_ofNat']; omega
  rw [begin_eq, lead, if_neg (by omega), if_neg (by omega), if_neg (by omega)]
  simp only [UInt8.le_iff_toNat_le, UInt8.toNat_ofNat']
  by_cases first : v / 4096 = 0
  · exact ⟨0xA0, 0xBF, by simp [first], by simp; omega, by simp; omega⟩
  · by_cases surrogate : v / 4096 = 13
    · exact ⟨0x80, 0x9F, by simp [surrogate], by simp; omega, by simp; omega⟩
    · refine ⟨0x80, 0xBF, ?_, by simp; omega, by simp; omega⟩
      rw [if_neg (by omega), if_neg (by omega), if_pos (by omega), Nat.add_sub_cancel]

theorem begin_four {v : Nat} (above : 0xFFFF < v) (below : v < 0x110000) :
    ∃ least greatest, begin (UInt8.ofNat (v / 262144 % 8 + 240)) =
        ([], .next 2 least greatest (v / 262144)) ∧
      least ≤ UInt8.ofNat (v / 4096 % 64 + 128) ∧
      UInt8.ofNat (v / 4096 % 64 + 128) ≤ greatest := by
  have lead : (UInt8.ofNat (v / 262144 % 8 + 240)).toNat = v / 262144 + 240 := by
    simp only [UInt8.toNat_ofNat']; omega
  rw [begin_eq, lead, if_neg (by omega), if_neg (by omega), if_neg (by omega), if_neg (by omega),
    if_neg (by omega), if_neg (by omega)]
  simp only [UInt8.le_iff_toNat_le, UInt8.toNat_ofNat']
  by_cases first : v / 262144 = 0
  · exact ⟨0x90, 0xBF, by simp [first], by simp; omega, by simp; omega⟩
  · by_cases final : v / 262144 = 4
    · exact ⟨0x80, 0x8F, by simp [final], by simp; omega, by simp; omega⟩
    · refine ⟨0x80, 0xBF, ?_, by simp; omega, by simp; omega⟩
      rw [if_neg (by omega), if_pos (by omega), Nat.add_sub_cancel]

theorem read_from_encoded (c : Char) (rest : Bytes) :
    readFrom .first (String.utf8EncodeChar c ++ rest) = some c :: readFrom .first rest := by
  have valid : c.val.toNat < 0xD800 ∨ 0xDFFF < c.val.toNat ∧ c.val.toNat < 0x110000 := c.valid
  have whole : Char.ofNat c.val.toNat = c := Char.ofNat_toNat c
  unfold String.utf8EncodeChar
  generalize c.val.toNat = v at valid whole
  dsimp only
  split_ifs with one two three
  · have small : (UInt8.ofNat v).toNat = v := by simp only [UInt8.toNat_ofNat']; omega
    rw [List.singleton_append, readFrom, step, begin_ascii (by omega), small, whole]
    rfl
  · have total : v / 64 * 64 + v % 64 = v := by omega
    simp only [List.cons_append, List.nil_append]
    rw [read_from_led (begin_two (by omega) two), read_from_last _ (continuation_within v),
      continuation_to_nat, total, whole]
  · obtain ⟨least, greatest, begun, within⟩ := begin_three (by omega) three (by omega)
    have total : (v / 4096 * 64 + v / 64 % 64) * 64 + v % 64 = v := by omega
    simp only [List.cons_append, List.nil_append]
    rw [read_from_led begun, read_from_more _ _ within, read_from_last _ (continuation_within v),
      continuation_to_nat, continuation_to_nat, total, whole]
  · obtain ⟨least, greatest, begun, within⟩ := begin_four (Nat.lt_of_not_le three) (by omega)
    have total : ((v / 262144 * 64 + v / 4096 % 64) * 64 + v / 64 % 64) * 64 + v % 64 = v := by
      omega
    simp only [List.cons_append, List.nil_append]
    rw [read_from_led begun, read_from_more _ _ within,
      read_from_more _ _ (continuation_within (v / 64)), read_from_last _ (continuation_within v),
      continuation_to_nat, continuation_to_nat, continuation_to_nat, total, whole]

@[simp] theorem decode_encode_append (text : Text) (bytes : Bytes) :
    decode (encode text ++ bytes) = text ++ decode bytes := by
  induction text with
  | nil => rfl
  | cons c text ih =>
      have cut : encode (c :: text) = String.utf8EncodeChar c ++ encode text := rfl
      simp only [decode, read] at ih ⊢
      rw [cut, List.append_assoc, read_from_encoded, List.map_cons, ih]
      rfl

@[simp] theorem decode_encode (text : Text) : decode (encode text) = text := by
  simpa [decode, read, readFrom] using decode_encode_append text []

theorem mem_encode {c : Char} (ascii : Ascii c) {text : Text} : octet c ∈ encode text ↔ c ∈ text := by
  rw [← mem_decode ascii, decode_encode]

theorem encode_filled {text : Text} (filled : text ≠ []) : encode text ≠ [] := by
  intro silent
  have read := decode_encode text
  rw [silent] at read
  exact filled read.symm

end Utf8

end AssemblyVersions
