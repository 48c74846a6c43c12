import AssemblyVersions.Proofs.Advance

set_option autoImplicit false

namespace AssemblyVersions

namespace Number

def size (number : Number) (part : Part) : Nat := (Decimal.value? (number.component part)).getD 0

def expected (start : Number) (parts : List Part) : Part → Nat
  | .build => start.size .build + parts.count .build
  | .revision =>
      (if .build ∈ parts then 0 else start.size .revision) +
        (parts.reverse.takeWhile (· != .build)).count .revision

structure Reached (start : Number) (parts : List Part) (number : Number) : Prop where
  major : number.major = start.major
  minor : number.minor = start.minor
  value : ∀ part, Decimal.value? (number.component part) = some (start.expected parts part)

theorem value_of_complete {number : Number} (plain : number.OnlyDigits)
    (complete : number.IsComplete) (part : Part) :
    Decimal.value? (number.component part) = some (number.size part) := by
  have written : number.component part ≠ [] := by
    cases part with
    | build => exact complete.2.2.1
    | revision => exact complete.2.2.2
  rw [size, Decimal.value?, if_pos ⟨written, plain.component part⟩, Option.getD_some]

theorem reached_start {start : Number} (plain : start.OnlyDigits) (complete : start.IsComplete) :
    start.Reached [] start where
  major := rfl
  minor := rfl
  value part := by
    rw [value_of_complete plain complete]
    cases part <;> rfl

theorem expected_le (start : Number) (parts : List Part) (part : Part) :
    start.expected parts part ≤ start.size part + parts.length := by
  cases part with
  | build => exact Nat.add_le_add_left List.count_le_length _
  | revision =>
      have since : (parts.reverse.takeWhile (· != .build)).count .revision ≤ parts.length := by
        calc (parts.reverse.takeWhile (· != .build)).count .revision
            ≤ (parts.reverse.takeWhile (· != .build)).length := List.count_le_length
          _ ≤ parts.reverse.length := (List.takeWhile_prefix _).length_le
          _ = parts.length := List.length_reverse
      rw [expected]
      split <;> omega

theorem Reached.grown {start number : Number} {parts : List Part}
    (reached : start.Reached parts number) (part : Part) :
    start.Reached (parts ++ [part]) (number.grown (start.expected parts part) part) := by
  cases part with
  | build =>
      refine ⟨reached.major, reached.minor, fun asked => ?_⟩
      cases asked with
      | build =>
          simp [component, Number.grown, expected, Nat.add_assoc]
      | revision =>
          have zero : Decimal.value? ['0'] = some 0 := by decide
          rw [component, Number.grown, zero]
          simp [expected]
  | revision =>
      refine ⟨reached.major, reached.minor, fun asked => ?_⟩
      cases asked with
      | build =>
          have kept := reached.value .build
          rw [component] at kept ⊢
          rw [Number.grown, kept]
          simp [expected]
      | revision =>
          simp [component, Number.grown, expected, Nat.add_assoc]

end Number

namespace Batch

section Sequence

variable {σ : Type} [Store σ] {paths : List Path} {same : Path → Path → Prop} {served : σ → Prop}
  {store : σ} {start : Kind → Number}

def increments (paths : List Path) : List (Kind × Part) → σ → Except Error σ
  | [], store => .ok store
  | (target, part) :: steps, store =>
      match run (.increment target part) false paths store with
      | (after, .ok _) => increments paths steps after
      | (_, .error error) => .error error

theorem increments_append (steps more : List (Kind × Part)) :
    increments paths (steps ++ more) store = increments paths steps store >>= increments paths more := by
  induction steps generalizing store with
  | nil => rfl
  | cons step steps ih =>
      obtain ⟨target, part⟩ := step
      rw [List.cons_append, increments, increments]
      obtain ⟨after, result⟩ := run (.increment target part) false paths store
      cases result with
      | error error => rfl
      | ok outcome => exact ih

def asked (kind : Kind) (steps : List (Kind × Part)) : List Part :=
  (steps.filter (·.1 == kind)).map Prod.snd

theorem asked_length_le (kind : Kind) (steps : List (Kind × Part)) :
    (asked kind steps).length ≤ steps.length := by
  rw [asked, List.length_map]
  exact List.length_filter_le ..

theorem asked_append (kind : Kind) (steps more : List (Kind × Part)) :
    asked kind (steps ++ more) = asked kind steps ++ asked kind more := by
  rw [asked, List.filter_append, List.map_append]
  rfl

def Bounded (start : Kind → Number) (steps : List (Kind × Part)) : Prop :=
  ∀ before target part, before ++ [(target, part)] <+: steps →
    (start target).expected (asked target before) part + 1 ≤ 2 ^ 64 - 1

theorem Bounded.of_prefix {done steps : List (Kind × Part)} (bounded : Bounded start steps)
    (first : done <+: steps) : Bounded start done :=
  fun before target part here => bounded before target part (here.trans first)

theorem bounded_of_room {steps : List (Kind × Part)}
    (room : ∀ step ∈ steps, (start step.1).size step.2 + steps.length ≤ 2 ^ 64 - 1) :
    Bounded start steps := by
  intro before target part here
  have listed : (target, part) ∈ steps := here.subset (by simp)
  have enough := room (target, part) listed
  have longer := here.length_le
  have fewer := asked_length_le target before
  have most := (start target).expected_le (asked target before) part
  rw [List.length_append, List.length_singleton] at longer
  dsimp only at enough
  omega

theorem increments_reach (serves : Serves paths same served) (healthy : served store)
    (ready : Ready paths store) (reads : ReadAs paths store start) {steps : List (Kind × Part)}
    (numeric : ∀ step ∈ steps, step.1.isNumeric) (bounded : Bounded start steps) :
    ∃ after number, increments paths steps store = .ok after ∧ served after ∧ Ready paths after ∧
      ReadAs paths after number ∧
      ∀ kind, kind.isNumeric → (start kind).Reached (asked kind steps) (number kind) := by
  induction steps using List.reverseRecOn with
  | nil =>
      refine ⟨store, start, rfl, healthy, ready, reads, fun kind numeric => ?_⟩
      obtain ⟨record, among, mine⟩ := ready.declared kind numeric
      have read := reads record among (by rw [mine]; exact numeric)
      rw [mine] at read
      obtain ⟨-, plain, complete⟩ := Number.of_text_eq_some.mp read
      exact Number.reached_start plain complete
  | append_singleton steps step ih =>
      obtain ⟨target, part⟩ := step
      obtain ⟨between, number, ran, served_between, ready_between, reads_between, reached⟩ :=
        ih (fun step among => numeric step (List.mem_append_left _ among))
          (bounded.of_prefix (List.prefix_append ..))
      have mine : target.isNumeric := numeric (target, part) (by simp)
      have fits := bounded steps target part List.prefix_rfl
      have grows : (number target).Grows part ((start target).expected (asked target steps) part) :=
        ⟨(reached target mine).value part, by omega⟩
      obtain ⟨after, outcome, advanced, served_after, ready_after, reads_after⟩ :=
        run_advanced serves served_between ready_between reads_between mine grows
      refine ⟨after, _, ?_, served_after, ready_after, reads_after, fun kind counted => ?_⟩
      · rw [increments_append, ran]
        simp only [bind, Except.bind, increments, advanced]
      · rw [asked_append]
        by_cases here : kind = target
        · subst here
          have one : asked kind [(kind, part)] = [part] := by simp [asked]
          rw [one, Function.update_self]
          exact (reached kind counted).grown part
        · have none_asked : asked kind [(target, part)] = [] := by simp [asked, Ne.symm here]
          rw [none_asked, List.append_nil, Function.update_of_ne here]
          exact reached kind counted

-- While no part would leave the words, every increment of a sequence succeeds, and after each of
-- them the files are ready and both numbers are what the counts of their own increments say.
theorem increments_compose (serves : Serves paths same served) (healthy : served store)
    (ready : Ready paths store) :
    ∃ start : Kind → Number, ReadAs paths store start ∧
      ∀ steps : List (Kind × Part), (∀ step ∈ steps, step.1.isNumeric) → Bounded start steps →
        ∀ done, done <+: steps → ∃ after number, increments paths done store = .ok after ∧
          Ready paths after ∧ ReadAs paths after number ∧
          ∀ kind, kind.isNumeric → (start kind).Reached (asked kind done) (number kind) := by
  obtain ⟨start, reads⟩ := ready.read_as
  refine ⟨start, reads, fun steps numeric bounded done first => ?_⟩
  obtain ⟨after, number, ran, -, still, now, reached⟩ :=
    increments_reach serves healthy ready reads
      (fun step among => numeric step (first.subset among)) (bounded.of_prefix first)
  exact ⟨after, number, ran, still, now, reached⟩

end Sequence

theorem increments_of_two_files :
    let first : Path := ⟨"A.cs".toList⟩
    let second : Path := ⟨"B.cs".toList⟩
    let store : MemoryStore :=
      { files := [(first, "[assembly: AssemblyVersion(\"1.2.3.4\")]\n".toList.map Utf8.octet),
                  (second, "[assembly: AssemblyFileVersion(\"5.6.7.8\")]\n".toList.map Utf8.octet)] }
    let steps := [(Kind.assembly, Part.build), (Kind.file, Part.revision),
      (Kind.assembly, Part.revision)]
    ∃ after number, increments [first, second] steps store = .ok after ∧
      Ready [first, second] after ∧ ReadAs [first, second] after number ∧
      Decimal.value? (number .assembly).build = some 4 ∧
      Decimal.value? (number .assembly).revision = some 1 ∧
      Decimal.value? (number .file).revision = some 9 := by
  intro first second store steps
  have healthy : MemoryStore.Served [first, second] store :=
    MemoryStore.served_of_present (fun _ _ => rfl) (by decide +kernel)
  have single : ∀ path ∈ [first, second], ∀ kind ∈ Kind.all,
      (Record.ofKind kind (Scanned.ofBytes path (contentOf store path)).records).length ≤ 1 := by
    decide +kernel
  have declared : ∀ kind ∈ Kind.all, kind.isNumeric →
      ∃ record ∈ recordsAt store [first, second], record.kind = kind := by decide +kernel
  have ready : Ready [first, second] store :=
    { single := fun path listed kind => single path listed kind (Kind.mem_all kind)
      agree := by
        unfold Record.Agree
        decide +kernel
      strict := by decide +kernel
      declared := fun kind => declared kind (Kind.mem_all kind) }
  obtain ⟨start, reads, composes⟩ :=
    increments_compose (MemoryStore.serves [first, second]) healthy ready
  have one : start .assembly = ⟨['1'], ['2'], ['3'], ['4']⟩ := by
    have among : ⟨.assembly, "1.2.3.4".toList, .numeric ⟨['1'], ['2'], ['3'], ['4']⟩, 0, first⟩ ∈
        recordsAt store [first, second] := by decide +kernel
    have read : Number.ofText? "1.2.3.4".toList = some ⟨['1'], ['2'], ['3'], ['4']⟩ := by
      decide +kernel
    exact Option.some.inj ((reads _ among rfl).symm.trans read)
  have other : start .file = ⟨['5'], ['6'], ['7'], ['8']⟩ := by
    have among : ⟨.file, "5.6.7.8".toList, .numeric ⟨['5'], ['6'], ['7'], ['8']⟩, 0, second⟩ ∈
        recordsAt store [first, second] := by decide +kernel
    have read : Number.ofText? "5.6.7.8".toList = some ⟨['5'], ['6'], ['7'], ['8']⟩ := by
      decide +kernel
    exact Option.some.inj ((reads _ among rfl).symm.trans read)
  have bounded : Bounded start steps := by
    apply bounded_of_room
    simp only [steps, List.forall_mem_cons, List.not_mem_nil, false_implies, implies_true, and_true,
      one, other]
    decide +kernel
  obtain ⟨after, number, ran, still, now, reached⟩ :=
    composes steps (by decide) bounded steps List.prefix_rfl
  refine ⟨after, number, ran, still, now, ?_, ?_, ?_⟩
  · refine ((reached .assembly rfl).value .build).trans ?_
    rw [one]
    decide +kernel
  · refine ((reached .assembly rfl).value .revision).trans ?_
    rw [one]
    decide +kernel
  · refine ((reached .file rfl).value .revision).trans ?_
    rw [other]
    decide +kernel

end Batch

end AssemblyVersions
