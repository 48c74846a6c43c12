import AssemblyVersions.Document
import AssemblyVersions.Proofs.Utf8

set_option autoImplicit false

namespace AssemblyVersions

namespace Line

structure Framed (line : Line) : Prop where
  whole : 10 ∉ line.bytes
  bare : line.ending = some .lf → line.bytes.getLast? ≠ some 13
  present : line.ending = none → line.bytes ≠ []

-- A carriage return at the end of a line that gets a line feed is read as part of the terminator.
def settle (line : Line) : Line :=
  if line.ending = some .lf ∧ line.bytes.getLast? = some 13 then ⟨line.bytes.dropLast, some .crlf⟩
  else line

@[simp] theorem content_settle (line : Line) : line.settle.content = line.content := by
  unfold settle
  split
  · rename_i loose
    have joined : line.bytes.dropLast ++ [13] = line.bytes :=
      List.dropLast_append_getLast? 13 loose.2
    simp only [content, loose.1, terminator, Ending.bytes]
    rw [show ([13, 10] : Bytes) = [13] ++ [10] from rfl, ← List.append_assoc, joined]
  · rfl

theorem settle_framed {line : Line} (whole : 10 ∉ line.bytes)
    (present : line.ending = none → line.bytes ≠ []) : line.settle.Framed := by
  unfold settle
  split
  · exact ⟨fun among => whole (List.mem_of_mem_dropLast among), by simp, by simp⟩
  · rename_i tight
    exact ⟨whole, fun ending last => tight ⟨ending, last⟩, present⟩

@[simp] theorem ending_settle (line : Line) : line.settle.ending = none ↔ line.ending = none := by
  unfold settle
  split
  · rename_i loose
    simp [loose.1]
  · exact Iff.rfl

end Line

namespace Document

def Framed : List Line → Prop
  | [] => True
  | line :: lines => line.Framed ∧ (line.ending = none → lines = []) ∧ Framed lines

theorem split_cons {byte : UInt8} {rest : Bytes} (plain : byte ≠ 10)
    (apart : byte = 13 → rest.head? ≠ some 10) : split (byte :: rest) = extend byte (split rest) := by
  refine split.eq_4 byte rest plain ?_
  rintro after atCr rfl
  exact apart atCr rfl

theorem split_terminated {bytes : Bytes} {ending : Ending} (whole : 10 ∉ bytes)
    (bare : ending = .lf → bytes.getLast? ≠ some 13) (rest : Bytes) :
    split (bytes ++ (ending.bytes ++ rest)) = ⟨bytes, some ending⟩ :: split rest := by
  induction bytes with
  | nil => cases ending <;> simp [Ending.bytes, split]
  | cons byte bytes ih =>
      simp only [List.mem_cons, not_or] at whole
      have later : split (bytes ++ (ending.bytes ++ rest)) = ⟨bytes, some ending⟩ :: split rest := by
        refine ih whole.2 fun lf last => bare lf ?_
        rw [List.getLast?_cons, last]
        rfl
      rw [List.cons_append, split_cons (Ne.symm whole.1), later, extend]
      intro atCr next
      cases bytes with
      | nil =>
          cases ending with
          | lf => exact bare rfl (by simp [atCr])
          | crlf => simp [Ending.bytes] at next
      | cons first bytes => exact whole.2 (by simp_all)

theorem split_open {bytes : Bytes} (whole : 10 ∉ bytes) (present : bytes ≠ []) :
    split bytes = [⟨bytes, none⟩] := by
  induction bytes with
  | nil => exact absurd rfl present
  | cons byte bytes ih =>
      simp only [List.mem_cons, not_or] at whole
      rw [split_cons (Ne.symm whole.1)]
      · cases bytes with
        | nil => rfl
        | cons first bytes => rw [ih whole.2 (by simp), extend]
      · intro _ next
        exact whole.2 (List.mem_of_mem_head? next)

theorem split_content {lines : List Line} (framed : Framed lines) :
    split (lines.flatMap Line.content) = lines := by
  induction lines with
  | nil => rfl
  | cons line lines ih =>
      obtain ⟨now, final, later⟩ := framed
      obtain ⟨bytes, ending⟩ := line
      rw [List.flatMap_cons, Line.content, List.append_assoc]
      cases ending with
      | none =>
          rw [final rfl]
          simpa [Line.terminator] using split_open now.whole (now.present rfl)
      | some ending =>
          rw [Line.terminator, split_terminated now.whole (fun lf => now.bare (by rw [lf])), ih later]

theorem framed_extend {byte : UInt8} {rest : Bytes} (plain : byte ≠ 10)
    (apart : byte = 13 → rest.head? ≠ some 10) (framed : Framed (split rest)) :
    Framed (extend byte (split rest)) := by
  have joined := content_of_bytes rest
  simp only [ofBytes, content] at joined
  cases cut : split rest with
  | nil => exact ⟨⟨by simpa using Ne.symm plain, by simp, by simp⟩, by simp, trivial⟩
  | cons line lines =>
      rw [cut] at framed joined
      obtain ⟨now, final, later⟩ := framed
      refine ⟨⟨?_, ?_, by simp⟩, final, later⟩
      · simpa using ⟨Ne.symm plain, now.whole⟩
      · intro lf last
        cases bytes : line.bytes with
        | nil =>
            rw [List.flatMap_cons, Line.content, bytes, lf] at joined
            refine apart (by simpa [bytes] using last) ?_
            rw [← joined]
            rfl
        | cons first more =>
            refine now.bare lf ?_
            simpa [bytes] using last

theorem framed_split (bytes : Bytes) : Framed (split bytes) := by
  fun_induction split bytes with
  | case1 => trivial
  | case2 rest ih => exact ⟨⟨by simp, by simp, by simp⟩, by simp, ih⟩
  | case3 rest ih => exact ⟨⟨by simp, by simp, by simp⟩, by simp, ih⟩
  | case4 byte rest plain apart ih =>
      refine framed_extend plain (fun atCr next => ?_) ih
      cases rest with
      | nil => simp at next
      | cons first after => exact apart after atCr (by simpa using next)

def Loose : List Line → Prop
  | [] => True
  | line :: lines =>
      10 ∉ line.bytes ∧ (line.ending = none → line.bytes ≠ [] ∧ lines = []) ∧ Loose lines

theorem framed_settle {lines : List Line} (loose : Loose lines) :
    Framed (lines.map Line.settle) := by
  induction lines with
  | nil => trivial
  | cons line lines ih =>
      obtain ⟨whole, final, later⟩ := loose
      refine ⟨Line.settle_framed whole fun ending => (final ending).1, fun ending => ?_, ih later⟩
      rw [(final ((Line.ending_settle line).mp ending)).2]
      rfl

theorem split_loose {lines : List Line} (loose : Loose lines) :
    split (lines.flatMap Line.content) = lines.map Line.settle := by
  have same : lines.flatMap Line.content = (lines.map Line.settle).flatMap Line.content := by
    rw [List.flatMap_map]
    exact List.flatMap_congr fun line _ => (Line.content_settle line).symm
  rw [same, split_content (framed_settle loose)]

end Document

end AssemblyVersions
