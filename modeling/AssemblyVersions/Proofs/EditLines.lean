import AssemblyVersions.Edit
import Mathlib

set_option autoImplicit false

namespace AssemblyVersions.Edit

def at? (records : List Record) (index : Nat) : Option Record := records.find? (·.line == index)

def met (records : List Record) : Nat → Kind → Nat
  | 0, _ => 0
  | index + 1, kind =>
      met records index kind + if (at? records index).any (·.kind == kind) then 1 else 0

def ofKind (kind : Kind) (updates : List Update) : List Update := updates.filter (·.kind == kind)

def taken? (records : List Record) (updates : List Update) (record : Record) : Option Update :=
  (ofKind record.kind updates)[met records record.line record.kind]?

def emitted (records : List Record) (updates : List Update) (record : Record) : Text :=
  match taken? records updates record with
  | some update => update.declaration
  | none => record.declaration

def textAt (records : List Record) (updates : List Update) (index : Nat) (line : Text) : Text :=
  match at? records index with
  | some record => emitted records updates record
  | none => line

def raise (count : Kind → Nat) (kind : Kind) : Kind → Nat :=
  fun other => if other = kind then count other + 1 else count other

def lower (count : Kind → Nat) (kind : Kind) : Kind → Nat :=
  fun other => if other = kind then count other - 1 else count other

-- The updates without the first `count kind` ones of each kind.
def unused (count : Kind → Nat) : List Update → List Update
  | [] => []
  | update :: updates =>
      if count update.kind = 0 then update :: unused count updates
      else unused (lower count update.kind) updates

@[simp] theorem lower_raise_self (count : Kind → Nat) (kind : Kind) :
    lower (raise count kind) kind = count := by
  funext other
  simp only [lower, raise]
  split <;> simp

theorem lower_raise {count : Kind → Nat} {spent : Kind} (some_left : count spent ≠ 0) (kind : Kind) :
    lower (raise count kind) spent = raise (lower count spent) kind := by
  funext other
  simp only [lower, raise]
  by_cases here : other = spent
  · simp only [here, if_true]
    split <;> omega
  · simp [here]

@[simp] theorem of_kind_unused (count : Kind → Nat) (kind : Kind) (updates : List Update) :
    ofKind kind (unused count updates) = (ofKind kind updates).drop (count kind) := by
  induction updates generalizing count with
  | nil => simp [unused, ofKind]
  | cons update updates ih =>
      simp only [ofKind] at ih
      by_cases same : update.kind = kind
      · subst same
        by_cases none_left : count update.kind = 0
        · simp [unused, ofKind, none_left, ih]
        · obtain ⟨more, counted⟩ := Nat.exists_eq_succ_of_ne_zero none_left
          simp [unused, ofKind, counted, ih, lower]
      · by_cases none_left : count update.kind = 0
        · simp [unused, ofKind, none_left, same, ih]
        · simp [unused, ofKind, none_left, same, Ne.symm same, ih, lower]

@[simp] theorem find_unused (count : Kind → Nat) (kind : Kind) (updates : List Update) :
    (unused count updates).find? (·.kind == kind) = (ofKind kind updates)[count kind]? := by
  rw [← List.head?_filter]
  have rest := of_kind_unused count kind updates
  rw [ofKind] at rest
  rw [rest, List.head?_drop]

@[simp] theorem remaining_unused (count : Kind → Nat) (kind : Kind) (updates : List Update) :
    remaining kind (unused count updates) = unused (raise count kind) updates := by
  induction updates generalizing count with
  | nil => rfl
  | cons update updates ih =>
      by_cases none_left : count update.kind = 0
      · by_cases same : update.kind = kind
        · subst same
          have passed : raise count update.kind update.kind ≠ 0 := by simp [raise]
          rw [unused, if_pos none_left, unused, if_neg passed, lower_raise_self]
          simp [remaining]
        · have kept : raise count kind update.kind = 0 := by simp [raise, same, none_left]
          have later := ih count
          simp only [remaining] at later ⊢
          rw [unused, if_pos none_left, unused, if_pos kept, ← later]
          simp [same]
      · have passed : raise count kind update.kind ≠ 0 := by
          simp only [raise]
          split <;> omega
        rw [unused, if_neg none_left, unused, if_neg passed, lower_raise none_left, ih]

theorem line_of_at {records : List Record} {index : Nat} {record : Record}
    (here : at? records index = some record) : record.line = index := by
  simpa using List.find?_some here

-- The updates that the walk still holds at a line are told by the records before it alone.
theorem lines_walk (path : Path) (records : List Record) (updates : List Update) (index : Nat)
    (seen : Seen) (lines : List Text) :
    (walk path records index seen (unused (met records index) updates) lines).lines =
      lines.mapIdx (fun offset => textAt records updates (index + offset)) ++
        (unused (met records (index + lines.length)) updates).map Update.declaration := by
  induction lines generalizing index seen with
  | nil => rfl
  | cons line lines ih =>
      have shift : (fun offset => textAt records updates (index + (offset + 1))) =
          fun offset => textAt records updates (index + 1 + offset) := by
        funext offset
        rw [Nat.add_right_comm, Nat.add_assoc]
      have size : index + (lines.length + 1) = index + 1 + lines.length := by omega
      rw [List.mapIdx_cons, List.length_cons, shift, size, List.cons_append, Nat.add_zero]
      cases here : at? records index with
      | none =>
          have same : met records (index + 1) = met records index := by
            funext kind
            simp [met, here]
          have found : records.find? (·.line == index) = none := here
          have after := ih (index + 1) seen
          rw [same] at after
          simp only [walk, found, textAt, here, after]
      | some record =>
          have grown : met records (index + 1) = raise (met records index) record.kind := by
            funext kind
            by_cases same : record.kind = kind
            · simp [met, here, raise, same]
            · simp [met, here, raise, same, Ne.symm same]
          have found : records.find? (·.line == index) = some record := here
          have after := ih (index + 1) (seen.note record.kind index)
          rw [grown, ← remaining_unused] at after
          have first : written record (unused (met records index) updates) =
              emitted records updates record := by
            cases taken : (ofKind record.kind updates)[met records index record.kind]? with
            | none => simp [written, emitted, taken?, line_of_at here, taken]
            | some update => simp [written, emitted, taken?, line_of_at here, taken]
          simp only [walk, found, textAt, here, after, first]

theorem lines_of_records (path : Path) (lines : List Text) (records : List Record)
    (updates : List Update) :
    (ofRecords path lines records updates).lines =
      lines.mapIdx (textAt records updates) ++
        (unused (met records lines.length) updates).map Update.declaration := by
  have all : unused (met records 0) updates = updates := by
    induction updates with
    | nil => rfl
    | cons update updates ih => simpa [unused, met] using ih
  have whole := lines_walk path records updates 0 [] lines
  simp only [all, Nat.zero_add] at whole
  exact whole

theorem mem_of_unused {count : Kind → Nat} {updates : List Update} {update : Update}
    (among : update ∈ unused count updates) : update ∈ updates := by
  induction updates generalizing count with
  | nil => cases among
  | cons first updates ih =>
      rw [unused] at among
      split at among
      · rcases List.mem_cons.mp among with rfl | later
        · exact List.mem_cons_self
        · exact List.mem_cons_of_mem first (ih later)
      · exact List.mem_cons_of_mem first (ih among)

theorem mem_of_taken {records : List Record} {updates : List Update} {record : Record}
    {update : Update} (taken : taken? records updates record = some update) :
    update ∈ updates ∧ update.kind = record.kind := by
  have among := List.mem_of_getElem? taken
  simpa [ofKind] using among

@[simp] theorem of_kind_append (kind : Kind) (a b : List Update) :
    ofKind kind (a ++ b) = ofKind kind a ++ ofKind kind b := List.filter_append ..

theorem of_kind_eq_nil {kind : Kind} {updates : List Update}
    (unasked : ∀ update ∈ updates, update.kind ≠ kind) : ofKind kind updates = [] := by
  rw [ofKind, List.filter_eq_nil_iff]
  intro update among
  simpa using unasked update among

theorem of_kind_apart {a b : List Update}
    (apart : ∀ first ∈ a, ∀ second ∈ b, first.kind ≠ second.kind) (kind : Kind) :
    ofKind kind a = [] ∨ ofKind kind b = [] := by
  by_cases asked : ∃ update ∈ a, update.kind = kind
  · obtain ⟨update, among, rfl⟩ := asked
    exact .inr (of_kind_eq_nil fun other inside => Ne.symm (apart update among other inside))
  · exact .inl (of_kind_eq_nil fun update among same => asked ⟨update, among, same⟩)

theorem unused_congr {a b : Kind → Nat} {updates : List Update}
    (same : ∀ update ∈ updates, a update.kind = b update.kind) : unused a updates = unused b updates := by
  induction updates generalizing a b with
  | nil => rfl
  | cons update updates ih =>
      rw [List.forall_mem_cons] at same
      have lowered : ∀ other ∈ updates,
          lower a update.kind other.kind = lower b update.kind other.kind := by
        intro other among
        rw [lower, lower, same.2 other among]
      rw [unused, unused, same.1, ih same.2, ih lowered]

theorem unused_append (count : Kind → Nat) {a b : List Update}
    (apart : ∀ first ∈ a, ∀ second ∈ b, first.kind ≠ second.kind) :
    unused count (a ++ b) = unused count a ++ unused count b := by
  induction a generalizing count with
  | nil => rfl
  | cons update a ih =>
      rw [List.forall_mem_cons] at apart
      have kept : unused (lower count update.kind) b = unused count b := by
        refine unused_congr fun other among => ?_
        rw [lower, if_neg (Ne.symm (apart.1 other among))]
      rw [List.cons_append, unused, unused]
      split
      · rw [ih count apart.2, List.cons_append]
      · rw [ih (lower count update.kind) apart.2, kept]

end AssemblyVersions.Edit
