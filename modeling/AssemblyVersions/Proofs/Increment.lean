import AssemblyVersions.Proofs.Planning
import AssemblyVersions.Proofs.ReadBack
import AssemblyVersions.Proofs.Runs

set_option autoImplicit false

namespace AssemblyVersions

def Scanned.Declares (file : Scanned) (kind : Kind) (number : Number) : Prop :=
  ∃ record, Record.first? file.records kind = some record ∧ record.value = number.toText ∧
    record.number? = some number

theorem Scanned.declares_edited (path : Path) (bytes : Bytes) {kind : Kind}
    (numeric : kind.isNumeric) {number : Number} (plain : number.OnlyDigits) :
    (ofBytes path ((ofBytes path bytes).edited [⟨kind, number.toText⟩])).Declares kind number := by
  let update : Update := ⟨kind, number.toText⟩
  have found : Number.find? update.value = some number := Number.find_to_text plain
  obtain ⟨readable, feedless⟩ : update.Readable ∧ '\n' ∉ update.value :=
    Update.readable_of_plain plain.text (by rw [found]; rfl)
  have only : Edit.ofKind update.kind [update] = [update] := by simp [Edit.ofKind]
  have first := first_of_edited path bytes (by simpa using feedless) readable only
  obtain ⟨record, here, value⟩ := Option.map_eq_some_iff.mp first
  obtain ⟨among, same⟩ := Record.first_eq_some here
  refine ⟨record, here, value, Record.number_of_value among (by rw [same]; exact numeric) ?_⟩
  rw [value]
  exact found

namespace Batch

section Increments

variable {σ : Type} [Store σ] {paths : List Path} {same : Path → Path → Prop} {served : σ → Prop}

def recordsAt (store : σ) (paths : List Path) : List Record := records (filesAt store paths)

theorem numbered_at (store : σ) (paths : List Path) : Record.Numbered (recordsAt store paths) := by
  apply Record.numbered_of_files
  intro file listed
  obtain ⟨path, -, rfl⟩ := List.mem_map.mp listed
  exact ⟨path, _, rfl⟩

theorem prepare_increment (serves : Serves paths same served) {store : σ} (healthy : served store)
    (target : Kind) (part : Part) :
    prepare (.increment target part) paths store =
      (Plan.increment (recordsAt store paths) target part).map fun plan =>
        (filesAt store paths, .update [plan.update] (some plan.update.value)) := by
  have unasked : assigned (.increment target part) = .ok [] := rfl
  rw [prepare, unasked, read_all_served serves healthy]
  simp only [bind, Except.bind, task, recordsAt]
  cases Plan.increment (records (filesAt store paths)) target part <;> rfl

theorem run_unplanned (serves : Serves paths same served) {store : σ} (healthy : served store)
    {target : Kind} {part : Part} {error : Error}
    (failed : Plan.increment (recordsAt store paths) target part = .error error) :
    run (.increment target part) false paths store = (store, .error error) := by
  rw [run, prepare_increment serves healthy, failed]
  rfl

theorem run_planned (serves : Serves paths same served) {store : σ} (healthy : served store)
    {target : Kind} {part : Part} {plan : Plan.Increment}
    (planned : Plan.increment (recordsAt store paths) target part = .ok plan) :
    ∃ after outcome, run (.increment target part) false paths store = (after, .ok outcome) ∧
      outcome.version = some plan.update.value ∧ served after ∧
      ∀ path ∈ paths,
        Store.read after path = .ok (newContent [plan.update] (contentOf store) path) := by
  have prepared : prepare (.increment target part) paths store =
      .ok (filesAt store paths, .update [plan.update] (some plan.update.value)) := by
    rw [prepare_increment serves healthy, planned]
    rfl
  exact run_update serves healthy prepared

section Verdicts

variable {store : σ} {target : Kind} {part : Part} {number : Number}

theorem run_disagreeing (serves : Serves paths same served) (healthy : served store)
    (numeric : target.isNumeric) (disagree : ¬ Record.Agree (recordsAt store paths)) :
    run (.increment target part) false paths store =
      (store, .error (.inconsistentVersions (Report.ofRecords (recordsAt store paths)))) :=
  run_unplanned serves healthy (Plan.increment_disagreeing numeric part disagree)

theorem run_missing (serves : Serves paths same served) (healthy : served store)
    (numeric : target.isNumeric) (agree : Record.Agree (recordsAt store paths))
    (missing : ∀ record ∈ recordsAt store paths, record.kind ≠ target) :
    run (.increment target part) false paths store = (store, .error (.noSuchVersion target)) :=
  run_unplanned serves healthy
    (Plan.increment_missing numeric part agree (Record.first_eq_none.mpr missing))

theorem run_stuck (serves : Serves paths same served) (healthy : served store)
    (numeric : target.isNumeric) (agree : Record.Agree (recordsAt store paths))
    (leads : Record.Leads (recordsAt store paths) target number)
    (stuck : ¬ ∃ n, number.Grows part n) :
    run (.increment target part) false paths store =
      (store, .error (.unparsableNumber (number.component part))) := by
  obtain ⟨source, plan⟩ := Plan.increment_leading numeric part agree leads
  apply run_unplanned serves healthy
  rw [plan, Number.increment_stuck ((numbered_at store paths).digits numeric leads) stuck]
  rfl

theorem run_grown (serves : Serves paths same served) (healthy : served store)
    (numeric : target.isNumeric) (agree : Record.Agree (recordsAt store paths))
    (leads : Record.Leads (recordsAt store paths) target number) {n : Nat}
    (grows : number.Grows part n) :
    ∃ after outcome, run (.increment target part) false paths store = (after, .ok outcome) ∧
      outcome.version = some (number.grown n part).toText ∧
      ∀ path ∈ paths, ∃ bytes, Store.read after path = .ok bytes ∧
        (Scanned.ofBytes path bytes).Declares target (number.grown n part) := by
  have plain := (numbered_at store paths).digits numeric leads
  obtain ⟨source, plan⟩ := Plan.increment_leading numeric part agree leads
  rw [Number.increment_grown plain grows] at plan
  obtain ⟨after, outcome, ran, version, -, contents⟩ := run_planned serves healthy plan
  refine ⟨after, outcome, ran, version, fun path listed => ⟨_, contents path listed, ?_⟩⟩
  exact Scanned.declares_edited path _ numeric (plain.grown n part)

end Verdicts

-- Disagreement comes before a missing kind, and that before a part without a successor. What passes all
-- three succeeds, and the new number is then declared in every file.
theorem increment_exact (serves : Serves paths same served) {store : σ} (healthy : served store)
    {target : Kind} (numeric : target.isNumeric) (part : Part) :
    let found := recordsAt store paths
    let result := run (.increment target part) false paths store
    ((∃ outcome, result.2 = .ok outcome) ↔
      Record.Agree found ∧ (∃ record ∈ found, record.kind = target) ∧
        ∃ number n, Record.Leads found target number ∧ number.Grows part n) ∧
    (¬ Record.Agree found → result.2 = .error (.inconsistentVersions (Report.ofRecords found))) ∧
    (Record.Agree found → (∀ record ∈ found, record.kind ≠ target) →
      result.2 = .error (.noSuchVersion target)) ∧
    (Record.Agree found → (∃ record ∈ found, record.kind = target) →
      (¬ ∃ number n, Record.Leads found target number ∧ number.Grows part n) →
      ∃ number, Record.Leads found target number ∧
        result.2 = .error (.unparsableNumber (number.component part))) ∧
    ∀ outcome, result.2 = .ok outcome →
      ∃ number n, Record.Leads found target number ∧ number.Grows part n ∧
        outcome.version = some (number.grown n part).toText ∧
        ∀ path ∈ paths, ∃ bytes, Store.read result.1 path = .ok bytes ∧
          (Scanned.ofBytes path bytes).Declares target (number.grown n part) := by
  intro found result
  have succeeds {number : Number} {n : Nat} (agree : Record.Agree found)
      (leads : Record.Leads found target number) (grows : number.Grows part n) :=
    run_grown serves healthy numeric agree leads grows
  have disagreeing (disagree : ¬ Record.Agree found) :
      result.2 = .error (.inconsistentVersions (Report.ofRecords found)) :=
    congrArg Prod.snd (run_disagreeing serves healthy numeric disagree)
  have missing (agree : Record.Agree found) (none_there : ∀ record ∈ found, record.kind ≠ target) :
      result.2 = .error (.noSuchVersion target) :=
    congrArg Prod.snd (run_missing serves healthy numeric agree none_there)
  have stuck (agree : Record.Agree found) (declared : ∃ record ∈ found, record.kind = target)
      (last : ¬ ∃ number n, Record.Leads found target number ∧ number.Grows part n) :
      ∃ number, Record.Leads found target number ∧
        result.2 = .error (.unparsableNumber (number.component part)) := by
    obtain ⟨number, leads⟩ := (numbered_at store paths).leader numeric declared
    refine ⟨number, leads, congrArg Prod.snd (run_stuck serves healthy numeric agree leads ?_)⟩
    rintro ⟨n, grows⟩
    exact last ⟨number, n, leads, grows⟩
  -- What makes a run fail is excluded one reason after another.
  have gate (outcome : Outcome) (ok : result.2 = .ok outcome) :
      Record.Agree found ∧ (∃ record ∈ found, record.kind = target) ∧
        ∃ number n, Record.Leads found target number ∧ number.Grows part n := by
    have agree : Record.Agree found := by
      by_contra disagree
      rw [disagreeing disagree] at ok
      cases ok
    have declared : ∃ record ∈ found, record.kind = target := by
      by_contra none_there
      push Not at none_there
      rw [missing agree none_there] at ok
      cases ok
    refine ⟨agree, declared, ?_⟩
    by_contra last
    obtain ⟨number, -, failed⟩ := stuck agree declared last
    rw [failed] at ok
    cases ok
  refine ⟨⟨?_, ?_⟩, disagreeing, missing, stuck, ?_⟩
  · rintro ⟨outcome, ok⟩
    exact gate outcome ok
  · rintro ⟨agree, -, number, n, leads, grows⟩
    obtain ⟨after, outcome, ran, -⟩ := succeeds agree leads grows
    exact ⟨outcome, congrArg Prod.snd ran⟩
  · intro outcome ok
    obtain ⟨agree, -, number, n, leads, grows⟩ := gate outcome ok
    obtain ⟨after, other, ran, version, everywhere⟩ := succeeds agree leads grows
    have ended : result = (after, .ok other) := ran
    rw [ended] at ok
    cases ok
    rw [ended]
    exact ⟨number, n, leads, grows, version, everywhere⟩

theorem increment_of_file_without_target :
    let first : Path := ⟨"A.cs".toList⟩
    let second : Path := ⟨"B.cs".toList⟩
    let store : MemoryStore :=
      { files := [(first, "[assembly: AssemblyVersion(\"1.2.3.4\")]\n".toList.map Utf8.octet),
                  (second, "// empty\n".toList.map Utf8.octet)] }
    let next : Number := ⟨['1'], ['2'], ['4'], ['0']⟩
    let result := run (.increment .assembly .build) false [first, second] store
    (∃ outcome, result.2 = .ok outcome ∧ outcome.version = some "1.2.4.0".toList) ∧
      ∃ bytes, Store.read result.1 second = .ok bytes ∧
        (Scanned.ofBytes second bytes).Declares .assembly next := by
  intro first second store next result
  have healthy : MemoryStore.Served [first, second] store :=
    MemoryStore.served_of_present (fun _ _ => rfl) (by decide +kernel)
  have numeric : Kind.isNumeric .assembly := rfl
  obtain ⟨-, -, -, -, effect⟩ :=
    increment_exact (MemoryStore.serves [first, second]) healthy numeric .build
  have leads : Record.Leads (recordsAt store [first, second]) .assembly
      ⟨['1'], ['2'], ['3'], ['4']⟩ :=
    ⟨⟨.assembly, "1.2.3.4".toList, .numeric ⟨['1'], ['2'], ['3'], ['4']⟩, 0, first⟩,
      by decide +kernel, rfl⟩
  have succeeds : result.2.toOption.isSome := by decide +kernel
  cases ended : result.2 with
  | error error =>
      rw [ended] at succeeds
      cases succeeds
  | ok outcome =>
      obtain ⟨number, n, leading, ⟨value, -⟩, version, everywhere⟩ := effect outcome ended
      obtain rfl := leading.unique leads
      have three : Decimal.value? ['3'] = some 3 := by decide
      obtain rfl : n = 3 := Option.some.inj (value.symm.trans three)
      have grown : Number.grown ⟨['1'], ['2'], ['3'], ['4']⟩ 3 .build = next := by decide
      rw [grown] at version everywhere
      exact ⟨⟨outcome, rfl, version⟩, everywhere second (by simp)⟩

end Increments

end Batch

end AssemblyVersions
