import AssemblyVersions.Proofs.EditsInTurn
import AssemblyVersions.Proofs.FileMap

set_option autoImplicit false

namespace AssemblyVersions

namespace Scanned

variable {path : Path} {bytes : Bytes}

def inTurn (path : Path) (updates : List Update) (bytes : Bytes) : Bytes :=
  updates.foldl (fun bytes update => (ofBytes path bytes).edited [update]) bytes

-- When they give the content of one edit with all the updates. Without an update there is no edit, while
-- the one edit still writes every declaration in its form.
def Agrees (file : Scanned) : List Update → Prop
  | [] => (file.edit []).isChanged = false
  | [_] => True
  | updates => file.Undisturbed updates.dropLast updates

theorem agrees_concat {file : Scanned} {first : List Update} (earlier : first ≠ []) (last : Update) :
    file.Agrees (first ++ [last]) ↔ file.Undisturbed first (first ++ [last]) := by
  obtain ⟨update, rest, rfl⟩ := List.exists_cons_of_ne_nil earlier
  have several : file.Agrees (update :: rest ++ [last]) =
      file.Undisturbed (update :: rest ++ [last]).dropLast (update :: rest ++ [last]) := by
    cases rest <;> rfl
  rw [several, List.dropLast_concat]

theorem in_turn_concat_iff (steady : (ofBytes path bytes).Steady) {first : List Update} {last : Update}
    (clear : ∀ update ∈ first, update.Readable ∧ '\n' ∉ update.value)
    (apart : (first ++ [last]).Pairwise fun a b => a.kind ≠ b.kind)
    (reached : inTurn path first bytes = (ofBytes path bytes).edited first) :
    inTurn path (first ++ [last]) bytes = (ofBytes path bytes).edited (first ++ [last]) ↔
      (ofBytes path bytes).Undisturbed first (first ++ [last]) := by
  rw [inTurn] at reached
  rw [inTurn, List.foldl_append, reached]
  exact edited_append_iff steady clear (List.pairwise_append.mp apart).2.2

theorem in_turn_of_clear (steady : (ofBytes path bytes).Steady) {updates : List Update}
    (asked : updates ≠ []) (clear : ∀ update ∈ updates, update.Readable ∧ '\n' ∉ update.value)
    (apart : updates.Pairwise fun a b => a.kind ≠ b.kind) :
    inTurn path updates bytes = (ofBytes path bytes).edited updates := by
  induction updates using List.reverseRecOn with
  | nil => exact absurd rfl asked
  | append_singleton first last ih =>
      by_cases alone : first = []
      · subst alone
        rfl
      · have before : ∀ update ∈ first, update.Readable ∧ '\n' ∉ update.value := fun update among =>
          clear update (List.mem_append_left _ among)
        have reached := ih alone before (List.pairwise_append.mp apart).1
        rw [in_turn_concat_iff steady before apart reached]
        exact undisturbed_of_quoteless path bytes fun update among => (clear update among).1.quoteless

theorem in_turn_iff (steady : (ofBytes path bytes).Steady) {updates : List Update}
    (clear : ∀ update ∈ updates.dropLast, update.Readable ∧ '\n' ∉ update.value)
    (apart : updates.Pairwise fun a b => a.kind ≠ b.kind) :
    (ofBytes path bytes).edited updates = inTurn path updates bytes ↔
      (ofBytes path bytes).Agrees updates := by
  rw [eq_comm]
  rcases List.eq_nil_or_concat' updates with rfl | ⟨first, last, rfl⟩
  · have changed := is_changed_iff path bytes []
    rw [Agrees, ← Bool.not_eq_true, changed, not_not, eq_comm]
    rfl
  · rw [List.dropLast_concat] at clear
    by_cases alone : first = []
    · subst alone
      exact iff_of_true rfl trivial
    · have reached := in_turn_of_clear steady alone clear (List.pairwise_append.mp apart).1
      rw [in_turn_concat_iff steady clear apart reached, agrees_concat alone]

theorem agrees_of_quoteless (path : Path) (bytes : Bytes) {updates : List Update} (asked : updates ≠ [])
    (clear : ∀ update ∈ updates, '"' ∉ update.value) : (ofBytes path bytes).Agrees updates := by
  obtain ⟨first, last, rfl⟩ := (List.eq_nil_or_concat' updates).resolve_left asked
  by_cases alone : first = []
  · subst alone
    trivial
  · exact (agrees_concat alone last).mpr (undisturbed_of_quoteless path bytes clear)

end Scanned

namespace Assignment

def only (update : Update) : Assignment :=
  match update.kind with
  | .assembly => { assembly := some update.value }
  | .file => { file := some update.value }
  | .informational => { informational := some update.value }

theorem entries_only (update : Update) : (only update).entries = [update] := by
  obtain ⟨kind, value⟩ := update
  cases kind <;> rfl

theorem entries_apart (assignment : Assignment) :
    assignment.entries.Pairwise fun a b => a.kind ≠ b.kind := by
  obtain ⟨assembly, file, informational⟩ := assignment
  cases assembly <;> cases file <;> cases informational <;> simp [entries, order, value?]

theorem numeric_of_earlier {assignment : Assignment} {update : Update}
    (early : update ∈ assignment.entries.dropLast) : update.kind.isNumeric := by
  obtain ⟨assembly, file, informational⟩ := assignment
  revert update
  cases assembly <;> cases file <;> cases informational <;>
    simp [entries, order, value?, Kind.isNumeric]

end Assignment

theorem Plan.set_only {assignment : Assignment} {updates : List Update}
    (accepted : set assignment = .ok updates) {update : Update} (among : update ∈ assignment.entries) :
    set (.only update) = .ok [update] := by
  have fits := (checked_all accepted).2 update among
  have passed : check update = .ok update := by
    rw [check, if_neg]
    rintro ⟨numeric, unread⟩
    have read := fits numeric
    rw [← Option.not_isNone, unread] at read
    cases read
  rw [set, Assignment.entries_only, List.mapM_cons, passed]
  rfl

namespace Batch

section SetsInTurn

variable {σ : Type} [Store σ] {paths : List Path} {same : Path → Path → Prop} {sound : σ → Prop}
  {store : σ}

def sets (paths : List Path) : List Update → σ → Except Error σ
  | [], store => .ok store
  | update :: updates, store =>
      match run (.set (.only update)) false paths store with
      | (after, .ok _) => sets paths updates after
      | (_, .error error) => .error error

theorem sets_mapped (replaces : Replaces paths same sound)
    (writable : ∀ store, sound store → ∀ path ∈ paths, ∀ bytes, ∃ next,
      Store.write store path bytes = .ok next)
    (healthy : sound store) (readable : ∀ path ∈ paths, ∃ bytes, Store.read store path = .ok bytes)
    {updates : List Update} (accepted : ∀ update ∈ updates, Plan.set (.only update) = .ok [update]) :
    ∃ after, sets paths updates store = .ok after ∧
      (∀ path ∈ paths, ∀ asked, same path asked →
        Store.read after asked = .ok (Scanned.inTurn path updates (contentOf store path))) ∧
      ∀ asked, (∀ path ∈ paths, ¬ same path asked) → Store.read after asked = Store.read store asked := by
  induction updates generalizing store with
  | nil =>
      refine ⟨store, rfl, fun path listed asked linked => ?_, fun asked _ => rfl⟩
      obtain ⟨bytes, held⟩ := readable path listed
      rw [replaces.shared store healthy path listed asked linked, contentOf, held]
      rfl
  | cons update updates ih =>
      obtain ⟨one, others⟩ := List.forall_mem_cons.mp accepted
      obtain ⟨next, outcome, ran, fine, mapped⟩ := set_mapped replaces writable healthy readable one
      have held (path : Path) (listed : path ∈ paths) :
          Store.read next path = .ok (newContent [update] (contentOf store) path) :=
        mapped.replaced path listed path (replaces.itself path listed)
      obtain ⟨after, done, inside, outside⟩ :=
        ih fine (fun path listed => ⟨_, held path listed⟩) others
      refine ⟨after, ?_, fun path listed asked linked => ?_, fun asked apart => ?_⟩
      · rw [sets, ran]
        exact done
      · have content : contentOf next path = newContent [update] (contentOf store) path := by
          rw [contentOf, held path listed]
        rw [inside path listed asked linked, content]
        rfl
      · rw [outside asked apart, mapped.kept asked apart]

-- Where every numeric declaration holds its own number and no content ends in a carriage return, one set
-- and the sets one after another both succeed. A file ends alike exactly if they agree on its content, and
-- all do if there is a value and the informational one has no quote.
theorem set_alike_sets_in_turn_iff (replaces : Replaces paths same sound)
    (writable : ∀ store, sound store → ∀ path ∈ paths, ∀ bytes, ∃ next,
      Store.write store path bytes = .ok next)
    (healthy : sound store) (readable : ∀ path ∈ paths, ∃ bytes, Store.read store path = .ok bytes)
    (steady : ∀ path ∈ paths, (Scanned.ofBytes path (contentOf store path)).Steady)
    {assignment : Assignment} {updates : List Update} (accepted : Plan.set assignment = .ok updates) :
    ∃ final outcome after, run (.set assignment) false paths store = (final, .ok outcome) ∧
      sets paths assignment.entries store = .ok after ∧
      (∀ path ∈ paths, Store.read final path = Store.read after path ↔
        (Scanned.ofBytes path (contentOf store path)).Agrees assignment.entries) ∧
      (assignment.entries ≠ [] → (∀ value, assignment.informational = some value → '"' ∉ value) →
        ∀ asked, Store.read final asked = Store.read after asked) := by
  obtain ⟨entries, numbers⟩ := Plan.checked_all accepted
  subst entries
  obtain ⟨final, outcome, ran, -, mapped⟩ := set_mapped replaces writable healthy readable accepted
  obtain ⟨after, done, inside, outside⟩ := sets_mapped replaces writable healthy readable
    fun update among => Plan.set_only accepted among
  have once (path : Path) (listed : path ∈ paths) :
      Store.read final path = .ok (newContent assignment.entries (contentOf store) path) :=
    mapped.replaced path listed path (replaces.itself path listed)
  have agree (path : Path) (listed : path ∈ paths) :
      newContent assignment.entries (contentOf store) path =
          Scanned.inTurn path assignment.entries (contentOf store path) ↔
        (Scanned.ofBytes path (contentOf store path)).Agrees assignment.entries := by
    refine Scanned.in_turn_iff (steady path listed) (fun update early => ?_) assignment.entries_apart
    exact Update.readable_of_number
      (numbers update (List.mem_of_mem_dropLast early) (Assignment.numeric_of_earlier early))
  refine ⟨final, outcome, after, ran, done, fun path listed => ?_, fun asked clear other => ?_⟩
  · rw [once path listed, inside path listed path (replaces.itself path listed), ← agree path listed,
      Except.ok.injEq]
  · by_cases named : Named same paths other
    · obtain ⟨path, listed, linked⟩ := named
      have quoteless : ∀ update ∈ assignment.entries, '"' ∉ update.value :=
        Assignment.forall_entries numbers
          (fun _ fits => (Update.readable_of_number fits).1.quoteless) clear
      have alike := (agree path listed).mpr (Scanned.agrees_of_quoteless path _ asked quoteless)
      rw [mapped.replaced path listed other linked, inside path listed other linked, alike]
    · have unnamed : ∀ path ∈ paths, ¬ same path other := fun path listed linked =>
        named ⟨path, listed, linked⟩
      rw [mapped.kept other unnamed, outside other unnamed]

end SetsInTurn

theorem set_alike_sets_on_unended_file :
    let path : Path := ⟨"A.cs".toList⟩
    let bytes := ("[assembly: AssemblyVersion(\"1.0.0.0\")] // first\r\n// note\n" ++
      "[assembly: AssemblyVersion(\"1.1.0.0\")]\r\n// end").toList.map Utf8.octet
    let store : MemoryStore := { files := [(path, bytes)] }
    let assignment : Assignment :=
      { assembly := some "2.0.0.0".toList
        file := some "3.0.0.0".toList
        informational := some "two\nlines".toList }
    ∃ final outcome after, run (.set assignment) false [path] store = (final, .ok outcome) ∧
      sets [path] assignment.entries store = .ok after ∧
      ∀ asked, Store.read final asked = Store.read after asked := by
  intro path bytes store assignment
  have held : Store.read store path = .ok bytes := by decide +kernel
  have readable : ∀ listed ∈ [path], ∃ bytes, Store.read store listed = .ok bytes :=
    List.forall_mem_singleton.mpr ⟨bytes, held⟩
  have steady : ∀ listed ∈ [path], (Scanned.ofBytes listed (contentOf store listed)).Steady :=
    List.forall_mem_singleton.mpr
      { numbered := by decide +kernel
        closed := by decide +kernel }
  have accepted : Plan.set assignment = .ok assignment.entries := by decide +kernel
  obtain ⟨final, outcome, after, ran, done, -, alike⟩ :=
    set_alike_sets_in_turn_iff (MemoryStore.replaces_locked [path] [])
      (fun store sound path _ => MemoryStore.writable (by rw [MemoryStore.Writable, sound]; rfl))
      rfl readable steady accepted
  have quoteless : ∀ value, assignment.informational = some value → '"' ∉ value := by
    rintro value ⟨⟩
    decide
  exact ⟨final, outcome, after, ran, done, alike (by decide) quoteless⟩

-- A quote lets the value spell the line that stands there, a replacement character for an octet that is
-- no UTF-8; and a set without values still writes what no set at all leaves.
theorem set_unlike_sets_in_turn :
    let path : Path := ⟨"A.cs".toList⟩
    let opening := "[assembly: AssemblyInformationalVersion(\"x\")] ".toList.map Utf8.octet
    let closing := "\")]\n".toList.map Utf8.octet
    let commented := "[assembly: AssemblyVersion(\"1.0.0.0\")] // x\n".toList.map Utf8.octet
    let spelled : Assignment :=
      { file := some "1.0.0.0".toList
        informational := some ("x\")] ".toList ++ [Char.ofNat 0xFFFD]) }
    ∀ setting ∈ [(opening ++ [0xA9] ++ closing, spelled), (commented, {})],
      let store : MemoryStore := { files := [(path, setting.1)] }
      let once := run (.set setting.2) false [path] store
      let inTurn := sets [path] setting.2.entries store
      (∀ record ∈ (Scanned.ofBytes path setting.1).records,
          record.kind.isNumeric → (Number.find? record.value).isSome) ∧
        setting.1.getLast? ≠ some 13 ∧
        Plan.set setting.2 = .ok setting.2.entries ∧
        once.2.toOption.isSome ∧ inTurn.toOption.isSome ∧
        inTurn.toOption.map (Store.read · path) ≠ some (Store.read once.1 path) := by
  decide +kernel

end Batch

end AssemblyVersions
