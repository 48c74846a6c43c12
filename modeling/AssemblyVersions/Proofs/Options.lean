import AssemblyVersions.Operation
import AssemblyVersions.Proofs.OptionWords

set_option autoImplicit false

namespace AssemblyVersions

def Operation.CutAt (spec before after : Text) : Prop :=
  spec = before ++ ',' :: after ∧ ',' ∉ before

def Operation.Parted (spec before after : Text) : Prop :=
  CutAt spec before after ∨ ',' ∉ spec ∧ before = spec ∧ after = []

theorem Operation.cut_eq_iff {spec before after : Text} :
    cut spec = (before, after) ↔ Parted spec before after := by
  have clear {text : Text} (absent : ',' ∉ text) : ∀ c ∈ text, (c != ',') = true := by
    intro c among
    have apart : c ≠ ',' := fun same => absent (same ▸ among)
    simpa using apart
  constructor
  · intro made
    obtain ⟨rfl, rfl⟩ := Prod.mk.inj made
    by_cases inside : ',' ∈ spec
    · obtain ⟨front, back, rfl, absent⟩ := List.eq_append_cons_of_mem inside
      refine .inl ⟨?_, ?_⟩
      · rw [List.takeWhile_append_of_pos (clear absent), List.dropWhile_append_of_pos (clear absent)]
        simp
      · rw [List.takeWhile_append_of_pos (clear absent)]
        simpa using absent
    · have whole : spec.takeWhile (· != ',') = spec :=
        List.takeWhile_eq_self_iff.mpr (clear inside)
      have nothing : spec.dropWhile (· != ',') = [] := List.dropWhile_eq_nil_iff.mpr (clear inside)
      exact .inr ⟨inside, whole, by rw [nothing, List.drop_nil]⟩
  · rintro (⟨rfl, absent⟩ | ⟨absent, rfl, rfl⟩)
    · rw [cut, List.takeWhile_append_of_pos (clear absent), List.dropWhile_append_of_pos (clear absent)]
      simp
    · rw [cut, List.takeWhile_eq_self_iff.mpr (clear absent),
        List.dropWhile_eq_nil_iff.mpr (clear absent), List.drop_nil]

theorem Part.empty_unspelled (lowering : Text.Lowering) (part : Part) : ¬ part.Spelled lowering [] := by
  rw [spelled_iff]
  cases part <;> decide

namespace Request

inductive Mode where
  | set
  | increment
  | report
  | get
deriving DecidableEq, Repr

-- An empty text is asked for like any other.
def Asks (request : Request) : Mode → Prop
  | .set => ∃ kind value, request.assignment.value? kind = some value
  | .increment => ∃ spec, request.increment = some spec
  | .report => request.report
  | .get => ∃ name, request.get = some name

def AsksOnly (request : Request) (mode : Mode) : Prop := ∀ other, request.Asks other ↔ other = mode

inductive Reads (lowering : Text.Lowering) (request : Request) : Except Error Operation → Prop
  | reportAmong (other : Mode) : request.Asks .report → other ≠ .report → request.Asks other →
      Reads lowering request
        (.error (.conflictingOperation "report cannot be combined with other options".toList))
  | getAmong (other : Mode) : ¬ request.Asks .report → request.Asks .get → other ≠ .get →
      request.Asks other →
      Reads lowering request
        (.error (.conflictingOperation "get cannot be combined with other options".toList))
  | setAndIncrement : ¬ request.Asks .report → ¬ request.Asks .get → request.Asks .set →
      request.Asks .increment →
      Reads lowering request (.error (.conflictingOperation
        "versions cannot be incremented while version numbers are being assigned".toList))
  | nothing : (∀ mode, ¬ request.Asks mode) → Reads lowering request (.error .noOperation)
  | set : request.AsksOnly .set → Reads lowering request (.ok (.set request.assignment))
  | report : request.AsksOnly .report → Reads lowering request (.ok .report)
  | get (name : Text) (kind : Kind) : request.AsksOnly .get → request.get = some name →
      kind.Named name → Reads lowering request (.ok (.get kind))
  | unknownKind (name : Text) : request.AsksOnly .get → request.get = some name →
      (∀ kind : Kind, ¬ kind.Named name) → Reads lowering request (.error (.unknownKind name))
  | increment (spec before after : Text) (target : Kind) (part : Part) :
      request.AsksOnly .increment → request.increment = some spec →
      Operation.CutAt spec before after → target ≠ .informational → target.Named before →
      part.Spelled lowering after → Reads lowering request (.ok (.increment target part))
  | badPart (spec before after : Text) : request.AsksOnly .increment →
      request.increment = some spec → Operation.Parted spec before after →
      (∀ part : Part, ¬ part.Spelled lowering after) →
      Reads lowering request (.error (.invalidIncrementPart after))
  | badTarget (spec before after word : Text) (part : Part) : request.AsksOnly .increment →
      request.increment = some spec → Operation.CutAt spec before after →
      part.Spelled lowering after → (∀ target : Kind, target ≠ .informational → ¬ target.Named before) →
      Text.Trimmed before word → Reads lowering request (.error (.unknownIncrementTarget word))

theorem setting_iff {request : Request} : request.setting ↔ request.Asks .set := by
  have entered (kind : Kind) : kind ∈ Assignment.order := by cases kind <;> decide
  rw [setting, Assignment.count, bne_iff_ne, ← Nat.pos_iff_ne_zero, List.length_pos_iff_exists_mem]
  constructor
  · rintro ⟨update, among⟩
    rw [Assignment.entries, List.mem_filterMap] at among
    obtain ⟨kind, -, here⟩ := among
    obtain ⟨value, held, -⟩ := Option.map_eq_some_iff.mp here
    exact ⟨kind, value, held⟩
  · rintro ⟨kind, value, held⟩
    exact ⟨⟨kind, value⟩, List.mem_filterMap.mpr ⟨kind, entered kind, by rw [held]; rfl⟩⟩

theorem incrementing_iff {request : Request} :
    request.increment.isSome ↔ request.Asks .increment := Option.isSome_iff_exists

theorem getting_iff {request : Request} : request.get.isSome ↔ request.Asks .get :=
  Option.isSome_iff_exists

variable {request : Request}

theorem AsksOnly.flags {mode : Mode} (only : request.AsksOnly mode) :
    request.report = decide (Mode.report = mode) ∧ request.get.isSome = decide (Mode.get = mode) ∧
      request.setting = decide (Mode.set = mode) ∧
      request.increment.isSome = decide (Mode.increment = mode) := by
  have flag {raised : Bool} {other : Mode} (asked : raised ↔ request.Asks other) :
      raised = decide (other = mode) := by
    rw [Bool.eq_iff_iff, decide_eq_true_iff]
    exact asked.trans (only other)
  exact ⟨flag Iff.rfl, flag getting_iff, flag setting_iff, flag incrementing_iff⟩

theorem operation_of_get {name : Text} (only : request.AsksOnly .get)
    (given : request.get = some name) :
    request.operation = match Kind.ofShortName? name with
      | some kind => .ok (.get kind)
      | none => .error (.unknownKind name) := by
  obtain ⟨report, -, setting, increment⟩ := only.flags
  have absent : request.increment = none := Option.not_isSome_iff_eq_none.mp (by rw [increment]; decide)
  simp only [operation, report, setting, absent, given]
  rfl

theorem operation_of_increment {spec before after : Text} (only : request.AsksOnly .increment)
    (given : request.increment = some spec) (parted : Operation.Parted spec before after) :
    request.operation = match Part.ofText? after, (Kind.ofShortName? before).filter Kind.isNumeric with
      | none, _ => .error (.invalidIncrementPart after)
      | some _, none => .error (.unknownIncrementTarget before.trim)
      | some part, some kind => .ok (.increment kind part) := by
  obtain ⟨report, get, setting, -⟩ := only.flags
  have absent : request.get = none := Option.not_isSome_iff_eq_none.mp (by rw [get]; decide)
  have parsed : request.operation =
      (Operation.parseIncrement spec).map fun step => .increment step.1 step.2 := by
    simp [operation, report, setting, absent, given]
  rw [parsed, Operation.parseIncrement, Operation.cut_eq_iff.mpr parted]
  cases read : Part.ofText? after with
  | none => simp [Part.parse, read, bind, Except.bind, Except.map]
  | some part =>
      cases named : (Kind.ofShortName? before).filter Kind.isNumeric with
      | none => simp [Part.parse, read, named, bind, Except.bind, Except.map]
      | some kind => simp [Part.parse, read, named, bind, Except.bind, Except.map]

theorem numbered_eq_some {target : Kind} {text : Text} :
    (Kind.ofShortName? text).filter Kind.isNumeric = some target ↔
      target ≠ .informational ∧ target.Named text := by
  have numeric : target.isNumeric ↔ target ≠ .informational := by cases target <;> decide
  rw [Option.filter_eq_some_iff, Kind.of_short_name_eq_some, numeric, and_comm]

theorem operation_of_reads {lowering : Text.Lowering} {result : Except Error Operation}
    (reads : request.Reads lowering result) : request.operation = result := by
  cases reads with
  | reportAmong other asked apart also =>
      have report : request.report = true := asked
      have more : (request.setting || request.increment.isSome || request.get.isSome) = true := by
        cases other with
        | set => simp [setting_iff.mpr also]
        | increment => simp [incrementing_iff.mpr also]
        | report => exact absurd rfl apart
        | get => simp [getting_iff.mpr also]
      rw [operation, if_pos (by rw [report, more]; rfl)]
  | getAmong other unreported asked apart also =>
      have report : request.report = false := Bool.eq_false_iff.mpr unreported
      have more : (request.setting || request.increment.isSome) = true := by
        cases other with
        | set => simp [setting_iff.mpr also]
        | increment => simp [incrementing_iff.mpr also]
        | report => exact absurd also unreported
        | get => exact absurd rfl apart
      rw [operation, if_neg (by simp [report]), if_pos (by rw [getting_iff.mpr asked, more]; rfl)]
  | setAndIncrement unreported ungot assigned incremented =>
      have report : request.report = false := Bool.eq_false_iff.mpr unreported
      have get : request.get.isSome = false := Bool.eq_false_iff.mpr (mt getting_iff.mp ungot)
      rw [operation, if_neg (by simp [report]), if_neg (by simp [get]),
        if_pos (by rw [setting_iff.mpr assigned, incrementing_iff.mpr incremented]; rfl)]
  | nothing silent =>
      have report : request.report = false := Bool.eq_false_iff.mpr (silent .report)
      have setting : request.setting = false := Bool.eq_false_iff.mpr (mt setting_iff.mp (silent .set))
      have get : request.get = none :=
        Option.not_isSome_iff_eq_none.mp (mt getting_iff.mp (silent .get))
      have increment : request.increment = none :=
        Option.not_isSome_iff_eq_none.mp (mt incrementing_iff.mp (silent .increment))
      simp [operation, report, setting, get, increment]
  | set only =>
      obtain ⟨report, get, setting, increment⟩ := only.flags
      have ungot : request.get = none := Option.not_isSome_iff_eq_none.mp (by rw [get]; decide)
      have unraised : request.increment = none :=
        Option.not_isSome_iff_eq_none.mp (by rw [increment]; decide)
      simp [operation, report, setting, ungot, unraised]
  | report only =>
      obtain ⟨report, get, setting, increment⟩ := only.flags
      simp [operation, report, setting, get, increment]
  | get name kind only given named =>
      rw [operation_of_get only given, Kind.of_short_name_eq_some.mpr named]
  | unknownKind name only given unnamed =>
      have unknown : Kind.ofShortName? name = none :=
        Option.eq_none_iff_forall_ne_some.mpr fun kind found =>
          unnamed kind (Kind.of_short_name_eq_some.mp found)
      rw [operation_of_get only given, unknown]
  | increment spec before after target part only given cut numeric named spelled =>
      rw [operation_of_increment only given (.inl cut), (Part.of_text_eq_some lowering).mpr spelled,
        numbered_eq_some.mpr ⟨numeric, named⟩]
  | badPart spec before after only given parted unspelled =>
      have unread : Part.ofText? after = none :=
        Option.eq_none_iff_forall_ne_some.mpr fun part found =>
          unspelled part ((Part.of_text_eq_some lowering).mp found)
      rw [operation_of_increment only given parted, unread]
  | badTarget spec before after word part only given cut spelled unnamed trimmed =>
      have unread : (Kind.ofShortName? before).filter Kind.isNumeric = none :=
        Option.eq_none_iff_forall_ne_some.mpr fun target found =>
          let ⟨numeric, named⟩ := numbered_eq_some.mp found
          unnamed target numeric named
      rw [operation_of_increment only given (.inl cut), (Part.of_text_eq_some lowering).mpr spelled,
        unread, Text.trim_eq_iff.mpr trimmed]

theorem reads_some (lowering : Text.Lowering) (request : Request) :
    ∃ result, request.Reads lowering result := by
  by_cases silent : ∀ mode, ¬ request.Asks mode
  · exact ⟨_, .nothing silent⟩
  · obtain ⟨mode, asked⟩ := not_forall_not.mp silent
    by_cases alone : ∀ other, request.Asks other → other = mode
    · have only : request.AsksOnly mode := fun other => ⟨alone other, fun same => same ▸ asked⟩
      cases mode with
      | set => exact ⟨_, .set only⟩
      | report => exact ⟨_, .report only⟩
      | get =>
          obtain ⟨name, given⟩ := asked
          by_cases named : ∃ kind : Kind, kind.Named name
          · obtain ⟨kind, named⟩ := named
            exact ⟨_, .get name kind only given named⟩
          · exact ⟨_, .unknownKind name only given (not_exists.mp named)⟩
      | increment =>
          obtain ⟨spec, given⟩ := asked
          obtain ⟨before, after, parted⟩ : ∃ before after, Operation.Parted spec before after :=
            ⟨_, _, Operation.cut_eq_iff.mp rfl⟩
          by_cases spelled : ∃ part : Part, part.Spelled lowering after
          · obtain ⟨part, spelled⟩ := spelled
            rcases parted with at_comma | ⟨-, -, rfl⟩
            · by_cases named : ∃ target : Kind, target ≠ .informational ∧ target.Named before
              · obtain ⟨target, numeric, named⟩ := named
                exact ⟨_, .increment spec before after target part only given at_comma numeric named
                  spelled⟩
              · exact ⟨_, .badTarget spec before after before.trim part only given at_comma spelled
                  (fun target numeric here => named ⟨target, numeric, here⟩) (Text.trimmed_trim before)⟩
            · exact absurd spelled (part.empty_unspelled lowering)
          · exact ⟨_, .badPart spec before after only given parted (not_exists.mp spelled)⟩
    · obtain ⟨other, also, apart⟩ : ∃ other, request.Asks other ∧ other ≠ mode := by
        simpa using alone
      -- Of two modes one is another one than any that is looked at first.
      have another (first : Mode) : ∃ second, second ≠ first ∧ request.Asks second := by
        by_cases same : mode = first
        · exact ⟨other, same ▸ apart, also⟩
        · exact ⟨mode, same, asked⟩
      by_cases report : request.Asks .report
      · obtain ⟨second, different, here⟩ := another .report
        exact ⟨_, .reportAmong second report different here⟩
      · by_cases get : request.Asks .get
        · obtain ⟨second, different, here⟩ := another .get
          exact ⟨_, .getAmong second report get different here⟩
        · have set : request.Asks .set := by
            obtain ⟨second, different, here⟩ := another .increment
            cases second with
            | set => exact here
            | increment => exact absurd rfl different
            | report => exact absurd here report
            | get => exact absurd here get
          have increment : request.Asks .increment := by
            obtain ⟨second, different, here⟩ := another .set
            cases second with
            | set => exact absurd rfl different
            | increment => exact here
            | report => exact absurd here report
            | get => exact absurd here get
          exact ⟨_, .setAndIncrement report get set increment⟩

theorem operation_eq_iff (lowering : Text.Lowering) {result : Except Error Operation} :
    request.operation = result ↔ request.Reads lowering result := by
  constructor
  · rintro rfl
    obtain ⟨result, reads⟩ := request.reads_some lowering
    rwa [operation_of_reads reads]
  · exact operation_of_reads

theorem AsksOnly.unique {mode a b : Mode} (only : request.AsksOnly mode) (left : request.Asks a)
    (right : request.Asks b) : a = b :=
  ((only a).mp left).trans ((only b).mp right).symm

theorem conflicting_iff :
    (∃ reason, request.operation = .error (.conflictingOperation reason)) ↔
      ∃ a b, a ≠ b ∧ request.Asks a ∧ request.Asks b := by
  constructor
  · rintro ⟨reason, refused⟩
    cases (operation_eq_iff .simple).mp refused with
    | reportAmong other asked apart also => exact ⟨.report, other, apart.symm, asked, also⟩
    | getAmong other _ asked apart also => exact ⟨.get, other, apart.symm, asked, also⟩
    | setAndIncrement _ _ set increment => exact ⟨.set, .increment, by decide, set, increment⟩
  · rintro ⟨a, b, apart, left, right⟩
    have several {mode : Mode} (only : request.AsksOnly mode) : False :=
      apart (only.unique left right)
    obtain ⟨result, reads⟩ := request.reads_some .simple
    rw [operation_of_reads reads]
    cases reads with
    | reportAmong => exact ⟨_, rfl⟩
    | getAmong => exact ⟨_, rfl⟩
    | setAndIncrement => exact ⟨_, rfl⟩
    | nothing silent => exact absurd left (silent a)
    | set only => exact (several only).elim
    | report only => exact (several only).elim
    | get _ _ only => exact (several only).elim
    | unknownKind _ only => exact (several only).elim
    | increment _ _ _ _ _ only => exact (several only).elim
    | badPart _ _ _ only => exact (several only).elim
    | badTarget _ _ _ _ _ only => exact (several only).elim

-- Which answer each request has: a conflict exactly if two modes are asked for, whatever their texts
-- are, and nothing to do exactly if there is none. A mode that is asked for alone is accepted exactly if
-- its text is well formed, and of two faults in the text of an increment the part's is told.
theorem one_mode_accepted (lowering : Text.Lowering) (request : Request) :
    ((∃ reason, request.operation = .error (.conflictingOperation reason)) ↔
        ∃ a b, a ≠ b ∧ request.Asks a ∧ request.Asks b) ∧
      (request.operation = .error .noOperation ↔ ∀ mode, ¬ request.Asks mode) ∧
      (∀ assignment, request.operation = .ok (.set assignment) ↔
        request.AsksOnly .set ∧ assignment = request.assignment) ∧
      (request.operation = .ok .report ↔ request.AsksOnly .report) ∧
      (∀ kind, request.operation = .ok (.get kind) ↔
        request.AsksOnly .get ∧ ∃ name, request.get = some name ∧ kind.Named name) ∧
      (∀ target part, request.operation = .ok (.increment target part) ↔
        request.AsksOnly .increment ∧ ∃ spec before after, request.increment = some spec ∧
          Operation.CutAt spec before after ∧ target ≠ .informational ∧ target.Named before ∧
          part.Spelled lowering after) ∧
      (∀ name, request.operation = .error (.unknownKind name) ↔
        request.AsksOnly .get ∧ request.get = some name ∧ ∀ kind : Kind, ¬ kind.Named name) ∧
      (∀ text, request.operation = .error (.invalidIncrementPart text) ↔
        request.AsksOnly .increment ∧ ∃ spec before, request.increment = some spec ∧
          Operation.Parted spec before text ∧ ∀ part : Part, ¬ part.Spelled lowering text) ∧
      (∀ text, request.operation = .error (.unknownIncrementTarget text) ↔
        request.AsksOnly .increment ∧ ∃ spec before after, request.increment = some spec ∧
          Operation.CutAt spec before after ∧ (∃ part : Part, part.Spelled lowering after) ∧
          (∀ target : Kind, target ≠ .informational → ¬ target.Named before) ∧
          Text.Trimmed before text) ∧
      ∀ error, request.operation = .error error → error = .noOperation ∨
        (∃ text, error = .conflictingOperation text) ∨ (∃ text, error = .unknownKind text) ∨
        (∃ text, error = .invalidIncrementPart text) ∨ ∃ text, error = .unknownIncrementTarget text := by
  refine ⟨conflicting_iff, ?_, fun assignment => ?_, ?_, fun kind => ?_, fun target part => ?_,
    fun name => ?_, fun text => ?_, fun text => ?_, fun error refused => ?_⟩
  · rw [operation_eq_iff lowering]
    exact ⟨fun | .nothing silent => silent, .nothing⟩
  · rw [operation_eq_iff lowering]
    exact ⟨fun | .set only => ⟨only, rfl⟩, fun ⟨only, same⟩ => same ▸ .set only⟩
  · rw [operation_eq_iff lowering]
    exact ⟨fun | .report only => only, .report⟩
  · rw [operation_eq_iff lowering]
    exact ⟨fun | .get name _ only given named => ⟨only, name, given, named⟩,
      fun ⟨only, name, given, named⟩ => .get name kind only given named⟩
  · rw [operation_eq_iff lowering]
    exact ⟨fun
      | .increment spec before after _ _ only given cut numeric named spelled =>
          ⟨only, spec, before, after, given, cut, numeric, named, spelled⟩,
      fun ⟨only, spec, before, after, given, cut, numeric, named, spelled⟩ =>
        .increment spec before after target part only given cut numeric named spelled⟩
  · rw [operation_eq_iff lowering]
    exact ⟨fun | .unknownKind _ only given unnamed => ⟨only, given, unnamed⟩,
      fun ⟨only, given, unnamed⟩ => .unknownKind name only given unnamed⟩
  · rw [operation_eq_iff lowering]
    exact ⟨fun
      | .badPart spec before _ only given parted unspelled =>
          ⟨only, spec, before, given, parted, unspelled⟩,
      fun ⟨only, spec, before, given, parted, unspelled⟩ =>
        .badPart spec before text only given parted unspelled⟩
  · rw [operation_eq_iff lowering]
    exact ⟨fun
      | .badTarget spec before after _ part only given cut spelled unnamed trimmed =>
          ⟨only, spec, before, after, given, cut, ⟨part, spelled⟩, unnamed, trimmed⟩,
      fun ⟨only, spec, before, after, given, cut, ⟨part, spelled⟩, unnamed, trimmed⟩ =>
        .badTarget spec before after text part only given cut spelled unnamed trimmed⟩
  · cases (operation_eq_iff lowering).mp refused with
    | reportAmong => exact .inr (.inl ⟨_, rfl⟩)
    | getAmong => exact .inr (.inl ⟨_, rfl⟩)
    | setAndIncrement => exact .inr (.inl ⟨_, rfl⟩)
    | nothing => exact .inl rfl
    | unknownKind => exact .inr (.inr (.inl ⟨_, rfl⟩))
    | badPart => exact .inr (.inr (.inr (.inl ⟨_, rfl⟩)))
    | badTarget => exact .inr (.inr (.inr (.inr ⟨_, rfl⟩)))

theorem increment_accepted_between_blanks :
    ({ increment := some " AV , Build ".toList } : Request).operation =
      .ok (.increment .assembly .build) := by
  obtain ⟨-, -, -, -, -, accepted, -⟩ :=
    one_mode_accepted Text.Lowering.simple { increment := some " AV , Build ".toList }
  have only : AsksOnly { increment := some " AV , Build ".toList } .increment := by
    intro other
    cases other with
    | set => exact iff_of_false (fun ⟨kind, _, held⟩ => by cases kind <;> cases held) (by decide)
    | increment => exact iff_of_true ⟨_, rfl⟩ rfl
    | report => exact iff_of_false Bool.false_ne_true (by decide)
    | get => exact iff_of_false (fun ⟨_, held⟩ => nomatch held) (by decide)
  have target : Kind.assembly.Named " AV ".toList :=
    ⟨"AV".toList, Text.trim_eq_iff.mp (by decide), by decide⟩
  have part : Part.build.Spelled Text.Lowering.simple " Build ".toList :=
    ⟨"Build".toList, Text.trim_eq_iff.mp (by decide), by decide⟩
  exact (accepted .assembly .build).mpr
    ⟨only, " AV , Build ".toList, " AV ".toList, " Build ".toList, rfl, ⟨by decide, by decide⟩,
      by decide, target, part⟩

-- Both the target and the part are wrong, and there is a second comma.
example : ({ increment := some " iv,b,".toList } : Request).operation =
    .error (.invalidIncrementPart "b,".toList) := by decide

end Request

end AssemblyVersions
