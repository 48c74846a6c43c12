import AssemblyVersions.Proofs.Contents

/-!
Edits that leave a content as it was. Values may hold line feeds, so the lines of the new content need
not be those of the edit; but an edit takes no line feed away, and one that adds none keeps the lines
apart. Hence the content stays the same only if every line does, and a change is logged exactly if the
content differs.
-/

set_option autoImplicit false

namespace AssemblyVersions

-- The line feeds inside lines, the terminators left out.
def innerFeeds (lines : List Line) : Nat := (lines.map fun line => line.bytes.count 10).sum

def terminated (lines : List Line) : Nat := lines.countP (·.ending.isSome)

theorem feeds_of_content (lines : List Line) :
    (lines.flatMap Line.content).count 10 = innerFeeds lines + terminated lines := by
  induction lines with
  | nil => rfl
  | cons line lines ih =>
      have one : (Line.terminator line.ending).count 10 = if line.ending.isSome then 1 else 0 := by
        cases line.ending with
        | none => rfl
        | some ending => cases ending <;> rfl
      simp only [innerFeeds, terminated] at ih ⊢
      rw [List.flatMap_cons, List.count_append, ih, Line.content, List.count_append, one, List.map_cons,
        List.sum_cons, List.countP_cons]
      omega

theorem inner_feeds_eq_zero {lines : List Line} :
    innerFeeds lines = 0 ↔ ∀ line ∈ lines, 10 ∉ line.bytes := by
  simp [innerFeeds, List.sum_eq_zero_iff, List.count_eq_zero]

@[simp] theorem terminated_append (a b : List Line) :
    terminated (a ++ b) = terminated a + terminated b :=
  List.countP_append

theorem terminated_of_all {lines : List Line} (all : ∀ line ∈ lines, line.ending.isSome) :
    terminated lines = lines.length :=
  List.countP_eq_length.mpr all

theorem Line.content_cut {a b : Line} {ending : Ending} (left : 10 ∉ a.bytes) (right : 10 ∉ b.bytes)
    (own : a.ending = some ending) (alike : a.ending = b.ending) {x y : Bytes}
    (same : a.content ++ x = b.content ++ y) : a = b ∧ x = y := by
  obtain ⟨bytes, kept⟩ := a
  obtain ⟨held, other⟩ := b
  obtain rfl : kept = other := alike
  obtain rfl : kept = some ending := own
  cases ending with
  | lf =>
      simp only [content, terminator, Ending.bytes, List.append_assoc, List.singleton_append] at same
      obtain ⟨here, there⟩ := first_cut left right same
      exact ⟨congrArg (Line.mk · (some .lf)) here, there⟩
  | crlf =>
      have cut : (bytes ++ [13]) ++ 10 :: x = (held ++ [13]) ++ 10 :: y := by
        simpa [content, terminator, Ending.bytes] using same
      have first : 10 ∉ bytes ++ [13] := by simpa using left
      have second : 10 ∉ held ++ [13] := by simpa using right
      obtain ⟨here, there⟩ := first_cut first second cut
      exact ⟨congrArg (Line.mk · (some .crlf)) (List.append_cancel_right here), there⟩

namespace Document

theorem lines_of_content {a b : List Line} (framed : Framed b) (whole : ∀ line ∈ a, 10 ∉ line.bytes)
    (endings : a.map Line.ending = b.map Line.ending)
    (same : a.flatMap Line.content = b.flatMap Line.content) : a = b := by
  induction a generalizing b with
  | nil => exact (List.map_eq_nil_iff.mp endings.symm).symm
  | cons first a ih =>
      cases b with
      | nil => cases endings
      | cons second b =>
          obtain ⟨now, final, later⟩ := framed
          obtain ⟨ending, others⟩ := List.cons.inj endings
          have rest := ih later (fun line among => whole line (List.mem_cons_of_mem first among)) others
          have clear : 10 ∉ first.bytes := whole first List.mem_cons_self
          rw [List.flatMap_cons, List.flatMap_cons] at same
          cases own : first.ending with
          | none =>
              have empty : b = [] := final (ending.symm.trans own)
              subst empty
              have none_left : a = [] := List.map_eq_nil_iff.mp others
              subst none_left
              have bytes : first.bytes = second.bytes := by
                simpa [Line.content, own, ← ending, Line.terminator] using same
              have one : first = second := congrArg₂ Line.mk bytes ending
              rw [one]
          | some kept =>
              obtain ⟨here, there⟩ := Line.content_cut clear now.whole own ending same
              rw [here, rest there]

end Document

namespace Edit

theorem no_changes_of_lines {path : Path} {records : List Record} {base : Nat} {seen : Seen}
    {pending : List Update} {lines : List Text}
    (same : (walk path records base seen pending lines).lines = lines) :
    (walk path records base seen pending lines).changes = [] := by
  induction lines generalizing base seen pending with
  | nil =>
      have empty : pending = [] := List.map_eq_nil_iff.mp same
      rw [empty]
      rfl
  | cons line lines ih =>
      rw [walk] at same ⊢
      cases found : records.find? (·.line == base) with
      | none =>
          simp only [found] at same ⊢
          exact ih (List.cons.inj same).2
      | some record =>
          simp only [found] at same ⊢
          obtain ⟨here, later⟩ := List.cons.inj same
          rw [ih later, replacement, if_pos here]
          rfl

end Edit

namespace Scanned

variable {file : Scanned} {updates : List Update}

theorem terminated_added {ending : Ending} {texts : List Text} {last : Option Ending}
    (closed : last.isSome) : terminated (addedLines ending last texts) = texts.length := by
  induction texts with
  | nil => rfl
  | cons text texts ih =>
      have here : (if texts = [] then last else some ending).isSome := by
        split
        · exact closed
        · rfl
      simp only [terminated] at ih ⊢
      rw [addedLines, List.countP_cons, ih, if_pos here, List.length_cons]

-- What follows an unterminated line terminates it, so added lines always add a terminator.
theorem terminated_of_additions (more : file.additions updates ≠ []) :
    terminated file.document.lines < terminated (file.rewritten updates) := by
  have closed : terminated (file.document.lines.mapIdx (file.lineAt updates)) =
      file.document.lines.length := by
    rw [terminated_of_all, List.length_mapIdx]
    intro line among
    obtain ⟨index, inside, rfl⟩ := List.mem_mapIdx.mp among
    simp [lineAt, more]
  rw [rewritten, terminated_append, closed]
  have bound : terminated file.document.lines ≤ file.document.lines.length := List.countP_le_length
  cases last : file.document.lastEnding with
  | some ending =>
      have added := List.length_pos_of_ne_nil more
      rw [terminated_added rfl]
      omega
  | none =>
      have unended : terminated file.document.lines ≠ file.document.lines.length := by
        intro all
        have every := List.countP_eq_length.mp all
        rw [Document.lastEnding] at last
        split at last
        · cases last
        · rename_i unterminated
          rw [Document.isTerminated] at unterminated
          split at unterminated
          · rename_i line final
            exact unterminated (every line (List.mem_of_getLast? final))
          · exact unterminated rfl
      omega

theorem rewritten_of_same_content (framed : Document.Framed file.document.lines)
    (same : (file.rewritten updates).flatMap Line.content =
      file.document.lines.flatMap Line.content) :
    file.rewritten updates = file.document.lines := by
  have feeds := congrArg (List.count 10) same
  have none_inside : innerFeeds file.document.lines = 0 :=
    inner_feeds_eq_zero.mpr fun line among => (Document.framed_of_mem framed among).whole
  rw [feeds_of_content, feeds_of_content, none_inside, Nat.zero_add] at feeds
  have alone : file.additions updates = [] := by
    by_contra more
    have grown := terminated_of_additions more
    omega
  have endings : (file.rewritten updates).map Line.ending = file.document.lines.map Line.ending := by
    rw [rewritten, alone, addedLines, List.append_nil]
    apply List.ext_getElem
    · simp
    · intro index left right
      simp [lineAt, alone]
  have kept : terminated (file.rewritten updates) = terminated file.document.lines := by
    have counted := congrArg (List.countP Option.isSome) endings
    rwa [List.countP_map, List.countP_map] at counted
  have whole : innerFeeds (file.rewritten updates) = 0 := by omega
  exact Document.lines_of_content framed (inner_feeds_eq_zero.mp whole) endings same

theorem is_changed_iff (path : Path) (bytes : Bytes) (updates : List Update) :
    ((ofBytes path bytes).edit updates).isChanged = true ↔
      (ofBytes path bytes).edited updates ≠ bytes := by
  constructor
  · intro changed same
    have framed : Document.Framed (ofBytes path bytes).document.lines := Document.framed_split bytes
    have content : (ofBytes path bytes).document.lines.flatMap Line.content = bytes :=
      Document.content_of_bytes bytes
    have kept : (ofBytes path bytes).rewritten updates = (ofBytes path bytes).document.lines := by
      apply rewritten_of_same_content framed
      rw [← edited_eq framed, same, content]
    have lines : ((ofBytes path bytes).edit updates).lines = (ofBytes path bytes).document.texts := by
      rw [← texts_of_rewritten, kept]
      rfl
    have silent : ((ofBytes path bytes).edit updates).changes = [] := Edit.no_changes_of_lines lines
    rw [Edit.isChanged, silent] at changed
    cases changed
  · intro differs
    by_contra unchanged
    rw [Bool.not_eq_true] at unchanged
    exact differs (edited_of_unchanged path bytes unchanged)

end Scanned

namespace Batch

theorem written_iff_content_differs (path : Path) (bytes : Bytes) (updates : List Update) :
    let file := Scanned.ofBytes path bytes
    ((file.edit updates).isChanged = true ↔ file.edited updates ≠ bytes) ∧
      ∀ (σ : Type) [Store σ] (store : σ),
        save store file updates false =
          if file.edited updates = bytes then .ok store
          else (Store.write store path (file.edited updates)).mapError (.writeFailure path) := by
  intro file
  refine ⟨Scanned.is_changed_iff path bytes updates, fun σ _ store => ?_⟩
  by_cases same : file.edited updates = bytes
  · have unchanged : (file.edit updates).isChanged = false := by
      rw [← Bool.not_eq_true, Scanned.is_changed_iff path bytes updates]
      exact not_not_intro same
    simp [save, unchanged, same]
  · have changed := (Scanned.is_changed_iff path bytes updates).mpr same
    have at_path : file.path = path := rfl
    rw [save, changed, if_neg same, at_path]
    simp only [Bool.not_false, Bool.and_self, if_true]
    cases Store.write store path (file.edited updates) <;> rfl

end Batch

end AssemblyVersions
