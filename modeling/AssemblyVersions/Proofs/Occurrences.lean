import AssemblyVersions.Proofs.Declaration

/-!
Occurrences of a written form in content. An old content is looked at through a veil that hides the
octets which an edit gives up; what is still seen there of a form of another kind occurs in the new
content too. A form may begin on one line and end on another, if its value has line feeds.
-/

set_option autoImplicit false

namespace AssemblyVersions

section Counting

variable {α : Type} [DecidableEq α]

def occurrences (needle : List α) : List α → Nat
  | [] => 0
  | a :: text => (if needle <+: a :: text then 1 else 0) + occurrences needle text

-- At how many places of the text the needle begins, if `rest` follows the text.
def beginnings (needle rest : List α) : List α → Nat
  | [] => 0
  | a :: text => (if needle <+: a :: (text ++ rest) then 1 else 0) + beginnings needle rest text

theorem occurrences_append (needle text rest : List α) :
    occurrences needle (text ++ rest) = beginnings needle rest text + occurrences needle rest := by
  induction text with
  | nil => exact (Nat.zero_add _).symm
  | cons a text ih => rw [List.cons_append, occurrences, beginnings, ih, Nat.add_assoc]

theorem beginnings_append (needle rest text more : List α) :
    beginnings needle rest (text ++ more) =
      beginnings needle (more ++ rest) text + beginnings needle rest more := by
  induction text with
  | nil => exact (Nat.zero_add _).symm
  | cons a text ih =>
      rw [List.cons_append, beginnings, beginnings, ih, List.append_assoc, Nat.add_assoc]

theorem occurrences_le_append (needle text rest : List α) :
    occurrences needle rest ≤ occurrences needle (text ++ rest) := by
  rw [occurrences_append]
  exact Nat.le_add_left ..

theorem beginnings_eq_zero {needle rest text : List α}
    (nowhere : ∀ later, later ≠ [] → later <:+ text → ¬ needle <+: later ++ rest) :
    beginnings needle rest text = 0 := by
  induction text with
  | nil => rfl
  | cons a text ih =>
      have here : ¬ needle <+: a :: (text ++ rest) :=
        nowhere (a :: text) (List.cons_ne_nil a text) List.suffix_rfl
      have after := ih fun later filled inside =>
        nowhere later filled (inside.trans (List.suffix_cons a text))
      rw [beginnings, after, if_neg here]

theorem beginnings_of_head_absent {a : α} {needle rest text : List α} (absent : a ∉ text) :
    beginnings (a :: needle) rest text = 0 := by
  refine beginnings_eq_zero fun later filled inside begun => ?_
  obtain ⟨b, later, rfl⟩ := List.exists_cons_of_ne_nil filled
  have same := (List.cons_prefix_cons.mp begun).1
  exact absent (same ▸ inside.subset List.mem_cons_self)

theorem beginnings_le {β : Type} [DecidableEq β] {see : α → β} {needle rest text : List α}
    {sight : List β}
    (kept : ∀ later, later ≠ [] → later <:+ text → needle.map see <+: later.map see ++ sight →
      needle <+: later ++ rest) :
    beginnings (needle.map see) sight (text.map see) ≤ beginnings needle rest text := by
  induction text with
  | nil => exact Nat.le_refl 0
  | cons a text ih =>
      have here : needle.map see <+: see a :: (text.map see ++ sight) →
          needle <+: a :: (text ++ rest) :=
        kept (a :: text) (List.cons_ne_nil a text) List.suffix_rfl
      have after := ih fun later filled inside =>
        kept later filled (inside.trans (List.suffix_cons a text))
      rw [List.map_cons, beginnings, beginnings]
      by_cases begun : needle.map see <+: see a :: (text.map see ++ sight)
      · rw [if_pos begun, if_pos (here begun)]
        exact Nat.add_le_add_left after 1
      · rw [if_neg begun]
        exact Nat.add_le_add (Nat.zero_le _) after

end Counting

theorem seen_in_append {α : Type} {needle text : List α} {sight : List (Option α)}
    (seen : needle.map some <+: text.map some ++ sight) :
    needle <+: text ∨ ∃ rest, rest ≠ [] ∧ needle = text ++ rest ∧ rest.map some <+: sight := by
  obtain ⟨after, same⟩ := seen
  rcases List.append_eq_append_iff.mp same with ⟨more, inside, -⟩ | ⟨more, beyond, left⟩
  · obtain ⟨first, last, split, atFirst, -⟩ := List.map_eq_append_iff.mp inside
    have equal : first = needle := List.map_injective_iff.mpr (Option.some_injective α) atFirst
    exact .inl ⟨last, by rw [split, equal]⟩
  · obtain ⟨first, last, split, atFirst, atLast⟩ := List.map_eq_append_iff.mp beyond
    have equal : first = text := List.map_injective_iff.mpr (Option.some_injective α) atFirst
    by_cases none_left : last = []
    · exact .inl ⟨[], by rw [split, none_left, equal, List.append_nil, List.append_nil]⟩
    · exact .inr ⟨last, none_left, by rw [split, equal], ⟨after, by rw [atLast, left]⟩⟩

def hidden (bytes : Bytes) : List (Option UInt8) := bytes.map fun _ => none

namespace Declaration

def leadBytes (kind : Kind) : Bytes := Utf8.encode (lead kind)

def closingBytes : Bytes := [34, 41, 93]

theorem encode_form (declaration : Declaration) :
    Utf8.encode declaration.toText =
      leadBytes declaration.kind ++ 34 :: (Utf8.encode declaration.value ++ closingBytes) := by
  have quote : Utf8.encode ['"'] = [34] := by decide +kernel
  have closed : Utf8.encode closing = closingBytes := by decide +kernel
  rw [toText, opening_eq, Utf8.encode_append, Utf8.encode_append, Utf8.encode_append, quote, closed]
  simp [leadBytes]

theorem lead_bytes_injective {a b : Kind} (same : leadBytes a = leadBytes b) : a = b := by
  apply lead_injective
  rw [← Utf8.decode_encode (lead a), ← Utf8.decode_encode (lead b)]
  exact congrArg Utf8.decode same

theorem lead_bytes_begin (kind : Kind) :
    ∃ rest, leadBytes kind = 91 :: rest ∧ 91 ∉ rest ∧ 34 ∉ leadBytes kind ∧ 10 ∉ leadBytes kind := by
  cases kind
  · exact ⟨(leadBytes .assembly).tail, by decide +kernel⟩
  · exact ⟨(leadBytes .file).tail, by decide +kernel⟩
  · exact ⟨(leadBytes .informational).tail, by decide +kernel⟩

end Declaration

open Declaration

def veiled (own : Kind) (value : List (Option UInt8)) (tail ending : Bytes) : List (Option UInt8) :=
  (leadBytes own).map some ++ some 34 :: (value ++ closingBytes.map some ++ hidden tail ++ ending.map some)

-- The old content behind its veil, and the new content. A line that is written anew keeps the sight of
-- its declaration, without the value if an update of another kind than `kind` took its place.
inductive Follows (kind : Kind) : List (Option UInt8) → Bytes → Prop where
  | done (added : Bytes) : Follows kind [] added
  | kept {bytes : Bytes} {sight : List (Option UInt8)} {content : Bytes}
      (ended : sight = [] ∨ bytes.getLast? = some 10) (rest : Follows kind sight content) :
      Follows kind (bytes.map some ++ sight) (bytes ++ content)
  | updated {own : Kind} {value tail ending new : Bytes} {sight : List (Option UInt8)}
      {content : Bytes} (other : own ≠ kind) (plain : 91 ∉ ending) (rest : Follows kind sight content) :
      Follows kind (veiled own (hidden value) tail ending ++ sight) (new ++ content)
  | reformed {own : Kind} {value tail ending new : Bytes} {sight : List (Option UInt8)}
      {content : Bytes} (quoteless : 34 ∉ value) (trailing : tail ≠ []) (plain : 91 ∉ ending)
      (rest : Follows kind sight content) :
      Follows kind (veiled own (value.map some) tail ending ++ sight)
        (Utf8.encode (toText ⟨own, Utf8.decode value⟩) ++ (new ++ content))

namespace Follows

variable {kind : Kind} {sight : List (Option UInt8)} {content : Bytes}

theorem seen_first_cut {word text : Bytes} (clear : 34 ∉ word) (quoteless : 34 ∉ text)
    {more : Bytes} {after : List (Option UInt8)}
    (seen : (word ++ 34 :: more).map some <+: text.map some ++ some 34 :: after) :
    word = text ∧ more.map some <+: after := by
  obtain ⟨rest, same⟩ := seen
  rw [List.map_append, List.map_cons, List.append_assoc, List.cons_append] at same
  have left : some (34 : UInt8) ∉ word.map some := by simpa using clear
  have right : some (34 : UInt8) ∉ text.map some := by simpa using quoteless
  obtain ⟨words, afters⟩ := first_cut left right same
  exact ⟨List.map_injective_iff.mpr (Option.some_injective _) words, rest, afters⟩

theorem veiled_append (own : Kind) (value : List (Option UInt8)) (tail ending : Bytes)
    (sight : List (Option UInt8)) :
    veiled own value tail ending ++ sight =
      (leadBytes own).map some ++ some 34 ::
        (value ++ (closingBytes.map some ++ (hidden tail ++ (ending.map some ++ sight)))) := by
  simp [veiled]

theorem ended_within {word text rest : Bytes} (ended : text.getLast? = some 10)
    (same : word ++ closingBytes = text ++ rest) :
    ∃ last, word = text ++ last ∧ rest = last ++ closingBytes := by
  rcases List.append_eq_append_iff.mp same with ⟨more, beyond, closed⟩ | ⟨more, within, left⟩
  · rcases List.eq_nil_or_concat' more with rfl | ⟨front, last, rfl⟩
    · exact ⟨[], by simpa using beyond.symm, by simpa using closed.symm⟩
    · rw [beyond, ← List.append_assoc, List.getLast?_concat, Option.some.injEq] at ended
      have among : last ∈ closingBytes := by
        rw [closed, ended]
        simp
      rw [ended] at among
      exact absurd among (by decide)
  · exact ⟨more, within, left⟩

theorem continued (follows : Follows kind sight content) {word : Bytes} (clear : 34 ∉ word)
    (seen : (word ++ closingBytes).map some <+: sight) : word ++ closingBytes <+: content := by
  induction follows generalizing word with
  | done added =>
      have empty := List.prefix_nil.mp seen
      simp [closingBytes] at empty
  | @kept bytes sight content ended rest ih =>
      rcases seen_in_append seen with inside | ⟨later, filled, same, beyond⟩
      · exact inside.trans (List.prefix_append bytes content)
      · rcases ended with final | ended
        · rw [final] at beyond
          exact absurd (List.map_eq_nil_iff.mp (List.prefix_nil.mp beyond)) filled
        · obtain ⟨last, first, rfl⟩ := ended_within ended same
          have absent : 34 ∉ last := fun among => clear (first ▸ List.mem_append_right bytes among)
          rw [same]
          exact (List.prefix_append_right_inj bytes).mpr (ih absent beyond)
  | @updated own value tail ending new sight content other plain rest ih =>
      rw [veiled_append] at seen
      obtain ⟨-, -, -, quoteless, -⟩ := lead_bytes_begin own
      obtain ⟨-, closed⟩ := seen_first_cut clear quoteless seen
      cases value with
      | nil => simp [hidden, closingBytes] at closed
      | cons octet value => simp [hidden] at closed
  | @reformed own value tail ending new sight content quoteless trailing plain rest ih =>
      rw [veiled_append] at seen
      obtain ⟨-, -, -, clear_lead, -⟩ := lead_bytes_begin own
      obtain ⟨opened, closed⟩ := seen_first_cut clear clear_lead seen
      have bracketed : ∃ later, value = 41 :: 93 :: later := by
        rcases value with _ | ⟨first, _ | ⟨second, later⟩⟩
        · simp [closingBytes] at closed
        · simp [closingBytes] at closed
        · simp only [List.map_cons, List.map_nil, List.cons_append, List.cons_prefix_cons,
            Option.some.injEq] at closed
          exact ⟨later, by rw [← closed.1, ← closed.2.1]⟩
      obtain ⟨later, rfl⟩ := bracketed
      have read : Utf8.decode (41 :: 93 :: later) = ')' :: ']' :: Utf8.decode later := by
        have first := Utf8.decode_append (c := ')') (by decide) [] (93 :: later)
        have second := Utf8.decode_append (c := ']') (by decide) [] later
        exact first.trans (congrArg (')' :: ·) second)
      have wrote : Utf8.encode (')' :: ']' :: Utf8.decode later) =
          41 :: 93 :: Utf8.encode (Utf8.decode later) := by
        rw [Utf8.encode_ascii (by decide), Utf8.encode_ascii (by decide)]
        rfl
      rw [encode_form, read, wrote, opened, closingBytes]
      simp

theorem last_of_suffix {text later : Bytes} (filled : later ≠ []) (inside : later <:+ text) :
    later.getLast? = text.getLast? := by
  obtain ⟨front, rfl⟩ := inside
  rw [List.getLast?_append_of_ne_nil front filled]

theorem begun_in_kept {value : Text} (quoteless : '"' ∉ value) {bytes later : Bytes}
    (ended : sight = [] ∨ bytes.getLast? = some 10) (rest : Follows kind sight content)
    (filled : later ≠ []) (inside : later <:+ bytes)
    (seen : (Utf8.encode (toText ⟨kind, value⟩)).map some <+: later.map some ++ sight) :
    Utf8.encode (toText ⟨kind, value⟩) <+: later ++ content := by
  rcases seen_in_append seen with within | ⟨after, going, same, beyond⟩
  · exact within.trans (List.prefix_append later content)
  · rcases ended with final | ended
    · rw [final] at beyond
      exact absurd (List.map_eq_nil_iff.mp (List.prefix_nil.mp beyond)) going
    · rw [← last_of_suffix filled inside] at ended
      have feed : 10 ∈ later := List.mem_of_getLast? ended
      obtain ⟨-, -, -, -, feedless⟩ := lead_bytes_begin kind
      have clear : 34 ∉ Utf8.encode value := fun among =>
        quoteless ((Utf8.mem_encode (c := '"') (by decide)).mp among)
      have split : (leadBytes kind ++ 34 :: Utf8.encode value) ++ closingBytes = later ++ after := by
        rw [← same, encode_form]
        simp
      obtain ⟨last, first, rfl⟩ := ended_within ended split
      have absent : 34 ∉ last := by
        rcases List.append_eq_append_iff.mp first with ⟨more, opened, left⟩ | ⟨more, within, -⟩
        · cases more with
          | nil =>
              rw [List.append_nil] at opened
              exact absurd (opened ▸ feed) feedless
          | cons quote more =>
              obtain ⟨-, valued⟩ := List.cons.inj left
              exact fun among => clear (valued ▸ List.mem_append_right more among)
        · exact absurd (within ▸ List.mem_append_left more feed) feedless
      rw [same]
      exact (List.prefix_append_right_inj later).mpr (rest.continued absent beyond)

-- A form cannot begin in a value: the value's closing would have to be its opening's quote, and what
-- follows the closing is hidden.
theorem not_begun_in_value {value : Text} {old tail ending later : Bytes} (quoteless : 34 ∉ old)
    (trailing : tail ≠ []) (inside : later <:+ old) :
    ¬ (Utf8.encode (toText ⟨kind, value⟩)).map some <+: later.map some ++
      (closingBytes.map some ++ (hidden tail ++ (ending.map some ++ sight))) := by
  intro seen
  obtain ⟨-, -, -, clear, -⟩ := lead_bytes_begin kind
  rw [encode_form] at seen
  obtain ⟨-, closed⟩ := seen_first_cut clear (fun among => quoteless (inside.subset among)) seen
  obtain ⟨octet, tail, rfl⟩ := List.exists_cons_of_ne_nil trailing
  generalize Utf8.encode value = form at closed
  rcases form with _ | ⟨first, _ | ⟨second, _ | ⟨third, form⟩⟩⟩ <;>
    simp [closingBytes, hidden] at closed

theorem form_begin (declaration : Declaration) :
    ∃ rest, Utf8.encode declaration.toText = 91 :: rest := by
  obtain ⟨rest, first, -⟩ := lead_bytes_begin declaration.kind
  exact ⟨_, by rw [encode_form, first, List.cons_append]⟩

theorem beginnings_in_veiled (declaration : Declaration) (own : Kind) {shown : List (Option UInt8)}
    {tail ending : Bytes} (plain : 91 ∉ ending)
    (quiet : beginnings ((Utf8.encode declaration.toText).map some)
      (closingBytes.map some ++ (hidden tail ++ (ending.map some ++ sight))) shown = 0) :
    beginnings ((Utf8.encode declaration.toText).map some) sight (veiled own shown tail ending) =
      if (Utf8.encode declaration.toText).map some <+: veiled own shown tail ending ++ sight
      then 1 else 0 := by
  obtain ⟨needle, begun⟩ := form_begin declaration
  obtain ⟨rest, first, once, -, -⟩ := lead_bytes_begin own
  have cut : veiled own shown tail ending = some 91 :: ((rest.map some ++ [some 34]) ++
      (shown ++ (closingBytes.map some ++ hidden tail ++ ending.map some))) := by
    simp [veiled, first]
  have nowhere {part more : List (Option UInt8)} (absent : some 91 ∉ part) :
      beginnings ((Utf8.encode declaration.toText).map some) more part = 0 := by
    rw [begun, List.map_cons]
    exact beginnings_of_head_absent absent
  have opening : some (91 : UInt8) ∉ rest.map some ++ [some 34] := by simpa using once
  have closing : some (91 : UInt8) ∉ closingBytes.map some ++ hidden tail ++ ending.map some := by
    simp [closingBytes, hidden, plain]
  have after : closingBytes.map some ++ hidden tail ++ ending.map some ++ sight =
      closingBytes.map some ++ (hidden tail ++ (ending.map some ++ sight)) := by
    rw [List.append_assoc, List.append_assoc]
  rw [cut, beginnings, beginnings_append _ _ (rest.map some ++ [some 34]), nowhere opening,
    beginnings_append _ _ shown, nowhere closing, after, quiet]
  rfl

theorem opens_as {declaration : Declaration} {own : Kind} {shown : List (Option UInt8)}
    {tail ending : Bytes}
    (seen : (Utf8.encode declaration.toText).map some <+: veiled own shown tail ending ++ sight) :
    declaration.kind = own ∧
      (Utf8.encode declaration.value ++ closingBytes).map some <+:
        shown ++ (closingBytes.map some ++ (hidden tail ++ (ending.map some ++ sight))) := by
  obtain ⟨-, -, -, clear, -⟩ := lead_bytes_begin declaration.kind
  obtain ⟨-, -, -, quoteless, -⟩ := lead_bytes_begin own
  rw [encode_form, veiled_append] at seen
  obtain ⟨leads, valued⟩ := seen_first_cut clear quoteless seen
  exact ⟨lead_bytes_injective leads, valued⟩

theorem occurrences_in_updated {declaration : Declaration} {own : Kind} (other : own ≠ declaration.kind)
    {old tail ending : Bytes} (plain : 91 ∉ ending) :
    beginnings ((Utf8.encode declaration.toText).map some) sight
      (veiled own (hidden old) tail ending) = 0 := by
  have quiet : beginnings ((Utf8.encode declaration.toText).map some)
      (closingBytes.map some ++ (hidden tail ++ (ending.map some ++ sight))) (hidden old) = 0 := by
    obtain ⟨needle, begun⟩ := form_begin declaration
    rw [begun, List.map_cons]
    exact beginnings_of_head_absent (by simp [hidden])
  rw [beginnings_in_veiled declaration own plain quiet]
  exact if_neg fun seen => other (opens_as seen).1.symm

theorem occurrences_in_reformed {declaration : Declaration} (clear : '"' ∉ declaration.value)
    (own : Kind) {old tail ending : Bytes} (quoteless : 34 ∉ old) (trailing : tail ≠ [])
    (plain : 91 ∉ ending) (new : Bytes) :
    beginnings ((Utf8.encode declaration.toText).map some) sight
        (veiled own (old.map some) tail ending) + occurrences (Utf8.encode declaration.toText) content ≤
      occurrences (Utf8.encode declaration.toText)
        (Utf8.encode (toText ⟨own, Utf8.decode old⟩) ++ (new ++ content)) := by
  have quiet : beginnings ((Utf8.encode declaration.toText).map some)
      (closingBytes.map some ++ (hidden tail ++ (ending.map some ++ sight))) (old.map some) = 0 := by
    refine beginnings_eq_zero fun later _ inside seen => ?_
    obtain ⟨front, same⟩ := inside
    obtain ⟨_, last, split, -, rfl⟩ := List.map_eq_append_iff.mp same.symm
    exact not_begun_in_value quoteless trailing ⟨_, split.symm⟩ seen
  rw [beginnings_in_veiled declaration own plain quiet]
  obtain ⟨rest, begun⟩ := form_begin ⟨own, Utf8.decode old⟩
  have counted : occurrences (Utf8.encode declaration.toText) content ≤
      occurrences (Utf8.encode declaration.toText) (rest ++ (new ++ content)) := by
    rw [← List.append_assoc]
    exact occurrences_le_append ..
  rw [begun, List.cons_append, occurrences, ← List.cons_append, ← begun]
  refine Nat.add_le_add ?_ counted
  by_cases seen : (Utf8.encode declaration.toText).map some <+:
      veiled own (old.map some) tail ending ++ sight
  · obtain ⟨same, valued⟩ := opens_as seen
    have unquoted : 34 ∉ Utf8.encode declaration.value := fun among =>
      clear ((Utf8.mem_encode (c := '"') (by decide)).mp among)
    obtain ⟨value, -⟩ := seen_first_cut unquoted quoteless valued
    have again : (⟨own, Utf8.decode old⟩ : Declaration) = declaration := by
      rw [← same, ← value, Utf8.decode_encode]
    rw [again, if_pos seen, if_pos (List.prefix_append ..)]
  · rw [if_neg seen]
    exact Nat.zero_le _

theorem occurrences_le {value : Text} (quoteless : '"' ∉ value) (follows : Follows kind sight content) :
    occurrences ((Utf8.encode (toText ⟨kind, value⟩)).map some) sight ≤
      occurrences (Utf8.encode (toText ⟨kind, value⟩)) content := by
  induction follows with
  | done added => exact Nat.zero_le _
  | @kept bytes sight content ended rest ih =>
      rw [occurrences_append, occurrences_append]
      refine Nat.add_le_add (beginnings_le fun later filled inside seen => ?_) ih
      exact begun_in_kept quoteless ended rest filled inside seen
  | @updated own old tail ending new sight content other plain rest ih =>
      rw [occurrences_append, occurrences_in_updated other plain, Nat.zero_add]
      exact ih.trans (occurrences_le_append ..)
  | @reformed own old tail ending new sight content unquoted trailing plain rest ih =>
      rw [occurrences_append]
      exact (Nat.add_le_add_left ih _).trans
        (occurrences_in_reformed quoteless own unquoted trailing plain new)

end Follows

end AssemblyVersions
