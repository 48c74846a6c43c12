import AssemblyVersions.Proofs.Occurrences
import AssemblyVersions.Proofs.Rescan

set_option autoImplicit false

namespace AssemblyVersions

open Declaration

-- A veil over some octets hides each of them or shows it as it is.
abbrev Shows : List (Option UInt8) → Bytes → Prop :=
  List.Forall₂ fun shown octet => shown = none ∨ shown = some octet

theorem shows_all (bytes : Bytes) : Shows (bytes.map some) bytes :=
  List.forall₂_map_left_iff.mpr (List.forall₂_same.mpr fun _ _ => .inr rfl)

theorem shows_hidden (bytes : Bytes) : Shows (hidden bytes) bytes :=
  List.forall₂_map_left_iff.mpr (List.forall₂_same.mpr fun _ _ => .inl rfl)

theorem Shows.append {a b : List (Option UInt8)} {x y : Bytes} (left : Shows a x) (right : Shows b y) :
    Shows (a ++ b) (x ++ y) :=
  List.rel_append left right

namespace Line

def oldValue (line : Line) (kind : Kind) : Bytes :=
  (line.bytes.drop ((leadBytes kind).length + 1)).takeWhile (· != 34)

def oldTail (line : Line) (kind : Kind) : Bytes :=
  line.bytes.drop ((leadBytes kind).length + 1 + (line.oldValue kind).length + closingBytes.length)

theorem bytes_of_declared {line : Line} {declaration : Declaration} {tail : Text}
    (clear : '"' ∉ declaration.value) (same : line.text = declaration.toText ++ tail) :
    ∃ value rest, line.bytes = leadBytes declaration.kind ++ 34 :: (value ++ (closingBytes ++ rest)) ∧
      34 ∉ value ∧ Utf8.decode value = declaration.value ∧ Utf8.decode rest = tail := by
  rw [text, to_text_append] at same
  have ascii : ∀ c ∈ lead declaration.kind, Utf8.Ascii c := by
    intro c among
    refine opening_ascii declaration.kind c ?_
    rw [opening_eq]
    exact List.mem_append_left _ among
  obtain ⟨quoted, opened, read⟩ := Utf8.decode_eq_ascii_append ascii same
  obtain ⟨inner, quote, read⟩ := Utf8.decode_eq_cons (by decide) read
  obtain ⟨value, closed, split, absent, valued, read⟩ := Utf8.decode_eq_append (by decide) clear read
  obtain ⟨bracket, paren, read⟩ := Utf8.decode_eq_cons (by decide) read
  obtain ⟨rest, last, read⟩ := Utf8.decode_eq_cons (by decide) read
  refine ⟨value, rest, ?_, absent, valued, read⟩
  rw [opened, quote, split, paren, last]
  rfl

theorem old_parts {line : Line} {kind : Kind} {value rest : Bytes} (absent : 34 ∉ value)
    (split : line.bytes = leadBytes kind ++ 34 :: (value ++ (closingBytes ++ rest))) :
    line.oldValue kind = value ∧ line.oldTail kind = rest := by
  have open_value : ∀ octet ∈ value, (octet != 34) = true := by
    intro octet among
    have other : octet ≠ 34 := fun quote => absent (quote ▸ among)
    simpa using other
  have dropped : line.bytes.drop ((leadBytes kind).length + 1) = value ++ (closingBytes ++ rest) := by
    rw [split, ← List.drop_drop, List.drop_left]
    rfl
  have first : line.oldValue kind = value := by
    rw [oldValue, dropped, List.takeWhile_append_of_pos open_value]
    simp [closingBytes]
  refine ⟨first, ?_⟩
  rw [oldTail, first, Nat.add_assoc _ value.length, ← List.drop_drop, dropped, ← List.drop_drop,
    List.drop_left, List.drop_left]

end Line

namespace Scanned

def veilAt (file : Scanned) (updates : List Update) (index : Nat) (line : Line) :
    List (Option UInt8) :=
  match Edit.at? file.records index with
  | none => line.content.map some
  | some record =>
      if line.text = Edit.emitted file.records updates record then line.content.map some
      else
        let value := line.oldValue record.kind
        veiled record.kind
          (if (Edit.taken? file.records updates record).isSome then hidden value else value.map some)
          (line.oldTail record.kind) (Line.terminator line.ending)

-- The old content without the octets that the edit gives up.
def veil (file : Scanned) (updates : List Update) : List (Option UInt8) :=
  (file.document.lines.mapIdx (file.veilAt updates)).flatten

theorem read_at {path : Path} {bytes : Bytes} {index : Nat} {line : Line} {record : Record}
    (at_index : (Document.ofBytes bytes).lines[index]? = some line)
    (here : Edit.at? (ofBytes path bytes).records index = some record) :
    Declaration.ofLine? line.text = some ⟨record.kind, record.value⟩ := by
  rw [ofBytes, Record.at_scan, Document.texts, List.getElem?_map, at_index, Option.map_some,
    Option.bind_some] at here
  exact (Record.of_line_eq_some.mp here).2.2.1

theorem declared_at {path : Path} {bytes : Bytes} {index : Nat} {line : Line} {record : Record}
    (at_index : (Document.ofBytes bytes).lines[index]? = some line)
    (here : Edit.at? (ofBytes path bytes).records index = some record) :
    '"' ∉ record.value ∧ ∃ tail, line.text = record.declaration ++ tail :=
  Declaration.of_line_eq_some.mp (read_at at_index here)

end Scanned

theorem terminator_plain (ending : Option Ending) : 91 ∉ Line.terminator ending := by
  rcases ending with _ | _ | _ <;> decide

theorem follows_kept_line {kind : Kind} {line : Line} {sight : List (Option UInt8)} {content : Bytes}
    (final : line.ending = none → sight = []) (rest : Follows kind sight content)
    (more : Option Ending) :
    Follows kind (line.content.map some ++ sight)
      ((⟨line.bytes, line.ending.or more⟩ : Line).content ++ content) := by
  cases closed : line.ending with
  | some own =>
      have ended : line.content.getLast? = some 10 := by
        cases own <;> simp [Line.content, closed, Line.terminator, Ending.bytes]
      have kept : Follows kind (line.content.map some ++ sight) (line.content ++ content) :=
        .kept (.inr ended) rest
      rw [Line.content, closed] at kept ⊢
      exact kept
  | none =>
      have kept : Follows kind (line.bytes.map some ++ []) (line.bytes ++ (Line.terminator more ++ content)) :=
        .kept (.inl rfl) (.done _)
      have bare : line.content = line.bytes := by simp [Line.content, closed, Line.terminator]
      rw [final closed, bare, Line.content, List.append_assoc]
      exact kept

namespace Scanned

theorem veiled_line {path : Path} {bytes : Bytes} (updates : List Update) {index : Nat} {line : Line}
    (at_index : (Document.ofBytes bytes).lines[index]? = some line) :
    let file := ofBytes path bytes
    (file.veilAt updates index line = line.content.map some ∧
        file.octetsAt updates index line = line.bytes) ∨
      ∃ record value tail,
        line.bytes = leadBytes record.kind ++ 34 :: (value ++ (closingBytes ++ tail)) ∧
        34 ∉ value ∧ Utf8.decode value = record.value ∧
        file.octetsAt updates index line = Utf8.encode (Edit.emitted file.records updates record) ∧
        (Edit.emitted file.records updates record = record.declaration → tail ≠ []) ∧
        file.veilAt updates index line = veiled record.kind
          (if (Edit.taken? file.records updates record).isSome then hidden value else value.map some)
          tail (Line.terminator line.ending) := by
  intro file
  rw [veilAt, octetsAt]
  cases here : Edit.at? file.records index with
  | none => exact .inl ⟨rfl, rfl⟩
  | some record =>
      obtain ⟨clear, tail, declared⟩ := declared_at at_index here
      by_cases same : line.text = Edit.emitted file.records updates record
      · exact .inl ⟨if_pos same, if_pos same⟩
      · have form : line.text = (⟨record.kind, record.value⟩ : Declaration).toText ++ tail := declared
        obtain ⟨value, after, split, absent, valued, read⟩ := Line.bytes_of_declared clear form
        obtain ⟨old_value, old_tail⟩ := Line.old_parts absent split
        refine .inr ⟨record, value, after, split, absent, valued, if_neg same, ?_, ?_⟩
        · rintro own rfl
          have empty : tail = [] := read.symm
          rw [empty, List.append_nil] at declared
          exact same (declared.trans own.symm)
        · simp only [if_neg same, old_value, old_tail]

theorem follows_line {path : Path} {bytes : Bytes} {updates : List Update} {kind : Kind}
    (untouched : ∀ update ∈ updates, update.kind ≠ kind) {index : Nat} {line : Line}
    (at_index : (Document.ofBytes bytes).lines[index]? = some line) {sight : List (Option UInt8)}
    {content : Bytes} (final : line.ending = none → sight = []) (rest : Follows kind sight content) :
    Follows kind ((ofBytes path bytes).veilAt updates index line ++ sight)
      (((ofBytes path bytes).lineAt updates index line).content ++ content) := by
  have plain := terminator_plain line.ending
  rw [lineAt]
  rcases veiled_line updates at_index with ⟨veil, octets⟩ |
    ⟨record, value, tail, -, absent, valued, octets, trailing, veil⟩
  · rw [veil, octets]
    exact follows_kept_line final rest _
  · rw [veil, octets, Line.content, List.append_assoc]
    cases taken : Edit.taken? (ofBytes path bytes).records updates record with
    | some update =>
        obtain ⟨asked, mine⟩ := Edit.mem_of_taken taken
        have other : record.kind ≠ kind := mine ▸ untouched update asked
        rw [Option.isSome_some, if_pos rfl, ← List.append_assoc]
        exact .updated other plain rest
    | none =>
        have own : Edit.emitted (ofBytes path bytes).records updates record = record.declaration := by
          rw [Edit.emitted, taken]
        rw [Option.isSome_none, own, Record.declaration, ← valued]
        exact .reformed absent (trailing own) plain rest

end Scanned

theorem shows_map_idx (lines : List Line) (veil : Nat → Line → List (Option UInt8))
    (each : ∀ index line, lines[index]? = some line → Shows (veil index line) line.content) :
    Shows (lines.mapIdx veil).flatten (lines.flatMap Line.content) := by
  induction lines generalizing veil with
  | nil => exact .nil
  | cons line lines ih =>
      have rest := ih (fun index => veil (index + 1)) fun index other among =>
        each (index + 1) other (by simpa using among)
      rw [List.mapIdx_cons, List.flatten_cons, List.flatMap_cons]
      exact (each 0 line rfl).append rest

theorem follows_map_idx {kind : Kind} {lines : List Line} (framed : Document.Framed lines)
    (veil : Nat → Line → List (Option UInt8)) (rewrite : Nat → Line → Line) (added : Bytes)
    (each : ∀ index line, lines[index]? = some line → ∀ sight content,
      (line.ending = none → sight = []) → Follows kind sight content →
        Follows kind (veil index line ++ sight) ((rewrite index line).content ++ content)) :
    Follows kind (lines.mapIdx veil).flatten
      ((lines.mapIdx rewrite).flatMap Line.content ++ added) := by
  induction lines generalizing veil rewrite with
  | nil => exact .done added
  | cons line lines ih =>
      obtain ⟨-, final, later⟩ := framed
      have rest := ih later (fun index => veil (index + 1)) (fun index => rewrite (index + 1))
        fun index other among => each (index + 1) other (by simpa using among)
      rw [List.mapIdx_cons, List.mapIdx_cons, List.flatten_cons, List.flatMap_cons, List.append_assoc]
      refine each 0 line rfl _ _ (fun open_end => ?_) rest
      rw [final open_end]
      rfl

namespace Scanned

theorem shows_line {path : Path} {bytes : Bytes} (updates : List Update) {index : Nat} {line : Line}
    (at_index : (Document.ofBytes bytes).lines[index]? = some line) :
    Shows ((ofBytes path bytes).veilAt updates index line) line.content := by
  rcases veiled_line updates at_index with ⟨veil, -⟩ | ⟨record, value, tail, split, -, -, -, -, veil⟩
  · rw [veil]
    exact shows_all line.content
  · rw [veil, Line.content, split, veiled]
    have valued : Shows (if (Edit.taken? (ofBytes path bytes).records updates record).isSome
        then hidden value else value.map some) value := by
      split
      · exact shows_hidden value
      · exact shows_all value
    have closed := (valued.append (shows_all closingBytes)).append (shows_hidden tail)
    have ended := closed.append (shows_all (Line.terminator line.ending))
    have quoted : Shows (some 34 :: _) (34 :: _) := .cons (.inr rfl) ended
    have whole := (shows_all (leadBytes record.kind)).append quoted
    simpa only [List.append_assoc, List.cons_append] using whole

theorem veil_shows (path : Path) (bytes : Bytes) (updates : List Update) :
    Shows ((ofBytes path bytes).veil updates) bytes := by
  have joined := Document.content_of_bytes bytes
  have each := shows_map_idx (Document.ofBytes bytes).lines ((ofBytes path bytes).veilAt updates)
    fun index line at_index => shows_line updates at_index
  rw [Document.content] at joined
  rw [joined] at each
  exact each

-- Of a kind that no update asks for, every declaration is kept of which no octet is given up.
theorem unrequested_text_kept (path : Path) (bytes : Bytes) {updates : List Update} {kind : Kind}
    {value : Text} (untouched : ∀ update ∈ updates, update.kind ≠ kind) (clear : '"' ∉ value) :
    let file := ofBytes path bytes
    let form := Utf8.encode (toText ⟨kind, value⟩)
    Shows (file.veil updates) bytes ∧
      occurrences (form.map some) (file.veil updates) ≤ occurrences form (file.edited updates) := by
  intro file form
  have framed : Document.Framed file.document.lines := Document.framed_split bytes
  refine ⟨veil_shows path bytes updates, ?_⟩
  rw [edited_eq framed, rewritten, List.flatMap_append]
  refine Follows.occurrences_le clear (follows_map_idx framed _ _ _ ?_)
  exact fun index line at_index sight content final rest => follows_line untouched at_index final rest

theorem unrequested_text_kept_on_other_line :
    let path : Path := ⟨"A.cs".toList⟩
    let bytes := ("// \r[assembly: AssemblyFileVersion(\"2.0.0.0\")] // kept\n" ++
      "[assembly: AssemblyVersion(\"1.0.0.0\")] // lost\n").toList.map Utf8.octet
    let updates : List Update := [⟨.assembly, "3.0.0.0".toList⟩]
    let form := Utf8.encode (toText ⟨.file, "2.0.0.0".toList⟩)
    (∀ update ∈ updates, update.kind ≠ .file) ∧ '"' ∉ "2.0.0.0".toList ∧
      1 ≤ occurrences form ((ofBytes path bytes).edited updates) := by
  intro path bytes updates form
  have untouched : ∀ update ∈ updates, update.kind ≠ .file := by decide +kernel
  have clear : '"' ∉ "2.0.0.0".toList := by decide +kernel
  have kept := (unrequested_text_kept path bytes untouched clear).2
  have seen : occurrences (form.map some) ((ofBytes path bytes).veil updates) = 1 := by
    decide +kernel
  exact ⟨untouched, clear, seen ▸ kept⟩

-- A declaration is lost behind another one on its line, or if it ends in the old value of another one.
theorem unrequested_text_lost :
    let path : Path := ⟨"A.cs".toList⟩
    let updates : List Update := [⟨.assembly, "3.0.0.0".toList⟩]
    let behind := ("[assembly: AssemblyVersion(\"1.0.0.0\")]" ++
      "[assembly: AssemblyFileVersion(\"2.0.0.0\")]\n").toList.map Utf8.octet
    let value := "2.0.0.0".toList
    let across := ("[assembly: AssemblyFileVersion(\"x\n" ++
      "[assembly: AssemblyVersion(\")] 1.2.3.4\")]\n").toList.map Utf8.octet
    let long_value := "x\n[assembly: AssemblyVersion(".toList
    let count (value : Text) (bytes : Bytes) := occurrences (Utf8.encode (toText ⟨.file, value⟩)) bytes
    (∀ update ∈ updates, update.kind ≠ .file) ∧ '"' ∉ value ∧ '"' ∉ long_value ∧
      count value behind = 1 ∧ count value ((ofBytes path behind).edited updates) = 0 ∧
      count long_value across = 1 ∧ count long_value ((ofBytes path across).edited updates) = 0 := by
  decide +kernel

end Scanned

end AssemblyVersions
