import AssemblyVersions.Proofs.EditRecords

/-!
An edit as one pass over its records in line order. Sorting keeps the order of the records at one
line; the first at each line counts, if the file has that line. A record that counts takes the update
whose place among the updates of its kind is the record's place among those of its kind. The pass
copies the lines between two such records, and every cut that it makes is within the lines.
-/

set_option autoImplicit false

namespace AssemblyVersions.Edit

def inLineOrder (records : List Record) : List Record :=
  records.mergeSort fun a b => a.line ≤ b.line

def firstAtEach : List Record → List Record
  | [] => []
  | record :: records => record :: (firstAtEach records).filter (·.line != record.line)

def kept (count : Nat) (records : List Record) : List Record :=
  firstAtEach ((inLineOrder records).filter (·.line < count))

def counted (records : List Record) (count : Nat) : List Record :=
  (List.range count).filterMap (at? records)

-- The updates that no record takes: more of their kind stand before them than records count.
def leftOver (records : List Record) (updates : List Update) : List Update :=
  (updates.zipIdx.filter fun entry =>
    (Record.ofKind entry.1.kind records).length ≤
      (ofKind entry.1.kind (updates.take entry.2)).length).map Prod.fst

def Increasing (records : List Record) : Prop := records.Pairwise fun a b => a.line < b.line

theorem Increasing.eq_of_same {a b : List Record} (left : Increasing a) (right : Increasing b)
    (same : ∀ record, record ∈ a ↔ record ∈ b) : a = b := by
  have apart {records : List Record} (increasing : Increasing records) : records.Nodup :=
    increasing.imp fun {first second} before equal => by simp [equal] at before
  have perm : a.Perm b := (List.perm_ext_iff_of_nodup (apart left) (apart right)).mpr same
  refine perm.eq_of_pairwise (fun first second _ _ before after => ?_) left right
  exact absurd after (Nat.not_lt_of_gt before)

theorem Increasing.at_line {records : List Record} (increasing : Increasing records) {record : Record}
    (among : record ∈ records) : at? records record.line = some record := by
  induction records with
  | nil => cases among
  | cons first records ih =>
      obtain ⟨before, later⟩ := List.pairwise_cons.mp increasing
      rcases List.mem_cons.mp among with rfl | inside
      · simp [at?]
      · have apart : ¬ first.line = record.line := Nat.ne_of_lt (before record inside)
        have found := ih later inside
        rw [at?] at found ⊢
        rw [List.find?_cons_of_neg (by simpa using apart), found]

theorem by_line_trans (a b c : Record) (first : decide (a.line ≤ b.line) = true)
    (second : decide (b.line ≤ c.line) = true) : decide (a.line ≤ c.line) = true :=
  decide_eq_true (Nat.le_trans (of_decide_eq_true first) (of_decide_eq_true second))

theorem by_line_total (a b : Record) :
    (decide (a.line ≤ b.line) || decide (b.line ≤ a.line)) = true := by
  simpa using Nat.le_total a.line b.line

theorem line_order_sorted (records : List Record) :
    (inLineOrder records).Pairwise fun a b => a.line ≤ b.line :=
  (List.pairwise_mergeSort by_line_trans by_line_total records).imp of_decide_eq_true

@[simp] theorem mem_line_order {records : List Record} {record : Record} :
    record ∈ inLineOrder records ↔ record ∈ records :=
  (List.mergeSort_perm records _).mem_iff

-- The records at one line are a part of the list that is sorted already, so sorting leaves them as
-- they stand.
@[simp] theorem at_line_order (records : List Record) (index : Nat) :
    at? (inLineOrder records) index = at? records index := by
  have level : (records.filter (·.line == index)).Pairwise fun a b => decide (a.line ≤ b.line) := by
    refine List.pairwise_of_forall_mem_list fun a first b second => ?_
    simp only [List.mem_filter, beq_iff_eq] at first second
    simp [first.2, second.2]
  have inside : (records.filter (·.line == index)).Sublist (inLineOrder records) :=
    List.sublist_mergeSort by_line_trans by_line_total level List.filter_sublist
  have part := inside.filter (·.line == index)
  rw [List.filter_filter] at part
  simp only [Bool.and_self] at part
  have size : (records.filter (·.line == index)).length =
      ((inLineOrder records).filter (·.line == index)).length :=
    (((List.mergeSort_perm records _).filter _).length_eq).symm
  rw [at?, at?, ← List.head?_filter, ← List.head?_filter, part.eq_of_length size]

theorem mem_first_at_each {records : List Record} {record : Record}
    (among : record ∈ firstAtEach records) : record ∈ records := by
  induction records with
  | nil => cases among
  | cons first records ih =>
      rcases List.mem_cons.mp among with rfl | later
      · exact List.mem_cons_self
      · exact List.mem_cons_of_mem first (ih (List.mem_of_mem_filter later))

@[simp] theorem at_first_at_each (records : List Record) (index : Nat) :
    at? (firstAtEach records) index = at? records index := by
  induction records with
  | nil => rfl
  | cons first records ih =>
      simp only [at?] at ih ⊢
      by_cases here : first.line = index
      · rw [firstAtEach, List.find?_cons_of_pos (by simpa using here),
          List.find?_cons_of_pos (by simpa using here)]
      · rw [firstAtEach, List.find?_cons_of_neg (by simpa using here),
          List.find?_cons_of_neg (by simpa using here), ← ih, List.find?_filter]
        congr 1
        funext record
        by_cases there : record.line = index
        · simp [there, Ne.symm here]
        · simp [there]

theorem first_at_each_increasing {records : List Record}
    (sorted : records.Pairwise fun a b => a.line ≤ b.line) : Increasing (firstAtEach records) := by
  induction records with
  | nil => exact List.Pairwise.nil
  | cons first records ih =>
      obtain ⟨before, later⟩ := List.pairwise_cons.mp sorted
      refine List.pairwise_cons.mpr ⟨fun record among => ?_, (ih later).filter _⟩
      obtain ⟨inside, apart⟩ := List.mem_filter.mp among
      have ordered := before record (mem_first_at_each inside)
      have different : record.line ≠ first.line := by simpa using apart
      omega

theorem mem_counted {records : List Record} {count : Nat} {record : Record} :
    record ∈ counted records count ↔ record.line < count ∧ at? records record.line = some record := by
  rw [counted, List.mem_filterMap]
  constructor
  · rintro ⟨index, within, here⟩
    rw [line_of_at here]
    exact ⟨List.mem_range.mp within, here⟩
  · rintro ⟨within, here⟩
    exact ⟨record.line, List.mem_range.mpr within, here⟩

theorem counted_increasing (records : List Record) (count : Nat) :
    Increasing (counted records count) := by
  refine List.Pairwise.filterMap (at? records) ?_ List.pairwise_lt_range
  intro first second before a here b there
  rwa [line_of_at here, line_of_at there]

theorem kept_eq_counted (count : Nat) (records : List Record) :
    kept count records = counted records count := by
  have sorted := (line_order_sorted records).filter (·.line < count)
  have increasing : Increasing (kept count records) := first_at_each_increasing sorted
  refine increasing.eq_of_same (counted_increasing records count) fun record => ?_
  have lookup (within : record.line < count) :
      at? (kept count records) record.line = at? records record.line := by
    rw [kept, at_first_at_each, ← at_line_order records, at?, at?, List.find?_filter]
    congr 1
    funext other
    by_cases there : other.line = record.line
    · simp [there, within]
    · simp [there]
  rw [mem_counted]
  constructor
  · intro among
    have within : record.line < count := by
      simpa using List.of_mem_filter (mem_first_at_each among)
    exact ⟨within, by rw [← lookup within]; exact increasing.at_line among⟩
  · rintro ⟨within, here⟩
    rw [← lookup within] at here
    exact List.mem_of_find?_eq_some here

theorem counted_of_increasing {records : List Record} (increasing : Increasing records) {count : Nat}
    (within : ∀ record ∈ records, record.line < count) : counted records count = records := by
  refine (counted_increasing records count).eq_of_same increasing fun record => ?_
  rw [mem_counted]
  constructor
  · exact fun found => List.mem_of_find?_eq_some found.2
  · exact fun among => ⟨within record among, increasing.at_line among⟩

theorem counted_succ (records : List Record) (count : Nat) :
    counted records (count + 1) = counted records count ++ (at? records count).toList := by
  rw [counted, List.range_succ, List.filterMap_append, ← counted]
  cases here : at? records count with
  | none => simp [here]
  | some record => simp [here]

theorem met_eq_length (records : List Record) (count : Nat) (kind : Kind) :
    met records count kind = (Record.ofKind kind (counted records count)).length := by
  induction count with
  | zero => rfl
  | succ count ih =>
      rw [met, ih, counted_succ, Record.of_kind_append, List.length_append]
      cases here : at? records count with
      | none => rfl
      | some record => by_cases same : record.kind = kind <;> simp [Record.ofKind, same]

theorem met_of_place {records : List Record} {count place : Nat} {kind : Kind} {record : Record}
    (placed : (Record.ofKind kind (counted records count))[place]? = some record) :
    met records record.line kind = place := by
  induction count with
  | zero => cases placed
  | succ count ih =>
      rw [counted_succ, Record.of_kind_append, List.getElem?_append, ← met_eq_length] at placed
      split at placed
      · exact ih placed
      · rename_i beyond
        cases here : at? records count with
        | none =>
            rw [here] at placed
            cases placed
        | some last =>
            rw [here] at placed
            obtain ⟨first, same⟩ : place - met records count kind = 0 ∧ last = record := by
              by_cases same : last.kind = kind
              · simpa [Record.ofKind, same, List.getElem?_singleton] using placed
              · simp [Record.ofKind, same] at placed
            rw [← same, line_of_at here]
            omega

-- The induction goes over the updates behind a front that has used up its share of the counts.
theorem unused_behind (count : Kind → Nat) (front updates : List Update) :
    unused (fun kind => count kind - (ofKind kind front).length) updates =
      ((updates.zipIdx front.length).filter fun entry => count entry.1.kind ≤
        (ofKind entry.1.kind ((front ++ updates).take entry.2)).length).map Prod.fst := by
  induction updates generalizing front with
  | nil => rfl
  | cons update updates ih =>
      have later := ih (front ++ [update])
      have spent : (fun kind => count kind - (ofKind kind (front ++ [update])).length) =
          lower (fun kind => count kind - (ofKind kind front).length) update.kind := by
        funext kind
        rw [of_kind_append, List.length_append, lower]
        by_cases same : kind = update.kind
        · simp [ofKind, same, Nat.sub_add_eq]
        · simp [ofKind, same, Ne.symm same]
      rw [spent, List.append_assoc, List.singleton_append, List.length_append, List.length_singleton]
        at later
      rw [List.zipIdx_cons, List.filter_cons, List.take_left, unused]
      by_cases enough : count update.kind ≤ (ofKind update.kind front).length
      · have none_left : count update.kind - (ofKind update.kind front).length = 0 :=
          Nat.sub_eq_zero_of_le enough
        have kept : lower (fun kind => count kind - (ofKind kind front).length) update.kind =
            fun kind => count kind - (ofKind kind front).length := by
          funext kind
          rw [lower]
          split
          · rename_i same
            rw [same, none_left]
          · rfl
        rw [kept] at later
        simp [enough, none_left, later]
      · have some_left : count update.kind - (ofKind update.kind front).length ≠ 0 := by omega
        simp [enough, some_left, later]

theorem left_over_eq_unused (records : List Record) (updates : List Update) :
    leftOver records updates = unused (fun kind => (Record.ofKind kind records).length) updates :=
  (unused_behind (fun kind => (Record.ofKind kind records).length) [] updates).symm

theorem walk_congr (path : Path) {a b : List Record} {base : Nat} (seen : Seen)
    (pending : List Update) {lines : List Text}
    (same : ∀ index, base ≤ index → index < base + lines.length → at? a index = at? b index) :
    walk path a base seen pending lines = walk path b base seen pending lines := by
  induction lines generalizing base seen pending with
  | nil => rfl
  | cons line lines ih =>
      rw [List.length_cons] at same
      have here : a.find? (·.line == base) = b.find? (·.line == base) :=
        same base (Nat.le_refl base) (by omega)
      have later : ∀ index, base + 1 ≤ index → index < base + 1 + lines.length →
          at? a index = at? b index :=
        fun index beyond within => same index (Nat.le_of_succ_le beyond) (by omega)
      rw [walk, walk, here]
      cases b.find? (·.line == base) with
      | none => simp only [ih seen pending later]
      | some record => simp only [ih _ _ later]

theorem walk_free (path : Path) {records : List Record} {base : Nat}
    (here : at? records base = none) (seen : Seen) (pending : List Update) (line : Text)
    (lines : List Text) :
    walk path records base seen pending (line :: lines) =
      let rest := walk path records (base + 1) seen pending lines
      { rest with lines := line :: rest.lines } := by
  have found : records.find? (·.line == base) = none := here
  rw [walk, found]

theorem walk_marked (path : Path) {records : List Record} {base : Nat} {record : Record}
    (here : at? records base = some record) (seen : Seen) (pending : List Update) (line : Text)
    (lines : List Text) :
    walk path records base seen pending (line :: lines) =
      let new := written record pending
      let rest := walk path records (base + 1) (seen.note record.kind base)
        (remaining record.kind pending) lines
      { lines := new :: rest.lines
        changes := replacement base line new ++ rest.changes
        warnings := seen.warning path record.kind base ++ rest.warnings } := by
  have found : records.find? (·.line == base) = some record := here
  rw [walk, found]

theorem walk_unmarked (path : Path) {records : List Record} {base : Nat} (seen : Seen)
    (pending : List Update) {front : List Text}
    (unmarked : ∀ index, base ≤ index → index < base + front.length → at? records index = none)
    (lines : List Text) :
    walk path records base seen pending (front ++ lines) =
      let rest := walk path records (base + front.length) seen pending lines
      { rest with lines := front ++ rest.lines } := by
  induction front generalizing base with
  | nil => rfl
  | cons line front ih =>
      have here : at? records base = none := unmarked base (Nat.le_refl base) (by simp)
      have size : base + (front.length + 1) = base + 1 + front.length := by omega
      have later : ∀ index, base + 1 ≤ index → index < base + 1 + front.length →
          at? records index = none := fun index beyond within =>
        unmarked index (Nat.le_of_succ_le beyond) (by rw [List.length_cons]; omega)
      rw [List.cons_append, walk_free path here, List.length_cons, size, ih later]
      rfl

def slice? (lines : List Text) (start stop : Nat) : Option (List Text) :=
  if start ≤ stop ∧ stop ≤ lines.length then some ((lines.take stop).drop start) else none

-- The pass over records in line order, from the line with the given index. A record before that line
-- or behind the last one is passed over.
def pass? (path : Path) (lines : List Text) : Nat → Seen → List Update → List Record → Option Edit
  | index, _, pending, [] => do
      let copied ← slice? lines index lines.length
      let rest := additions pending
      some { rest with lines := copied ++ rest.lines }
  | index, seen, pending, record :: records =>
      if record.line < index ∨ lines.length ≤ record.line then
        pass? path lines index seen pending records
      else do
        let copied ← slice? lines index record.line
        let line ← lines[record.line]?
        let new := written record pending
        let rest ← pass? path lines (record.line + 1) (seen.note record.kind record.line)
          (remaining record.kind pending) records
        some
          { lines := copied ++ new :: rest.lines
            changes := replacement record.line line new ++ rest.changes
            warnings := seen.warning path record.kind record.line ++ rest.warnings }

theorem slice_at_line {lines : List Text} {start stop : Nat} (ordered : start ≤ stop)
    (inside : stop < lines.length) :
    ∃ front, slice? lines start stop = some front ∧ start + front.length = stop ∧
      lines.drop start = front ++ lines[stop] :: lines.drop (stop + 1) := by
  have size : stop = (lines.take stop).length := by
    rw [List.length_take]
    omega
  refine ⟨(lines.take stop).drop start, if_pos ⟨ordered, Nat.le_of_lt inside⟩, ?_, ?_⟩
  · rw [List.length_drop]
    omega
  · rw [← List.drop_eq_getElem_cons inside, ← List.drop_append_of_le_length (by omega),
      List.take_append_drop]

theorem at_cons_of_ne {record : Record} {index : Nat} (apart : record.line ≠ index)
    (records : List Record) : at? (record :: records) index = at? records index :=
  List.find?_cons_of_neg (by simpa using apart)

theorem at_before {records : List Record} {index : Nat}
    (behind : ∀ record ∈ records, index < record.line) : at? records index = none := by
  rw [at?, List.find?_eq_none]
  intro record among
  simpa using Nat.ne_of_gt (behind record among)

theorem pass_eq_walk (path : Path) (lines : List Text) {records : List Record}
    (sorted : records.Pairwise fun a b => a.line ≤ b.line) {index : Nat} (seen : Seen)
    (pending : List Update) (within : index ≤ lines.length) :
    pass? path lines index seen pending records =
      some (walk path records index seen pending (lines.drop index)) := by
  induction records generalizing index seen pending with
  | nil =>
      have whole : slice? lines index lines.length = some (lines.drop index) := by
        rw [slice?, if_pos ⟨within, Nat.le_refl _⟩, List.take_length]
      have free : ∀ other, index ≤ other → other < index + (lines.drop index).length →
          at? [] other = none := fun _ _ _ => rfl
      have copied := walk_unmarked path seen pending free []
      rw [List.append_nil] at copied
      rw [copied, pass?, whole]
      rfl
  | cons record records ih =>
      obtain ⟨before, later⟩ := List.pairwise_cons.mp sorted
      rw [pass?]
      split
      · rename_i passed
        rw [ih later seen pending within]
        refine congrArg some (walk_congr path seen pending fun other beyond inside => ?_)
        rw [List.length_drop] at inside
        exact (at_cons_of_ne (by omega) records).symm
      · rename_i counts
        obtain ⟨beyond, inside⟩ : index ≤ record.line ∧ record.line < lines.length := by omega
        obtain ⟨front, copied, size, cut⟩ := slice_at_line beyond inside
        have unmarked : ∀ other, index ≤ other → other < index + front.length →
            at? (record :: records) other = none := by
          intro other _ less
          refine at_before fun one among => ?_
          rcases List.mem_cons.mp among with rfl | behind
          · omega
          · have ordered := before one behind
            omega
        have here : at? (record :: records) record.line = some record :=
          List.find?_cons_of_pos (by simp)
        have apart : ∀ other, record.line + 1 ≤ other →
            other < record.line + 1 + (lines.drop (record.line + 1)).length →
            at? (record :: records) other = at? records other :=
          fun other above _ => at_cons_of_ne (Nat.ne_of_lt above) records
        have rest := walk_congr path (seen.note record.kind record.line)
          (remaining record.kind pending) apart
        rw [cut, walk_unmarked path seen pending unmarked, size, walk_marked path here, rest, copied,
          List.getElem?_eq_getElem inside, ih later _ _ inside]
        rfl

theorem line_order_increasing {records : List Record} (distinct : (records.map Record.line).Nodup) :
    Increasing (inLineOrder records) := by
  have apart : (inLineOrder records).Pairwise fun a b => a.line ≠ b.line :=
    List.pairwise_map.mp (((List.mergeSort_perm records _).map Record.line).nodup_iff.mpr distinct)
  exact (line_order_sorted records).imp₂ (fun _ _ => Nat.lt_of_le_of_ne) apart

theorem of_records_of_perm (path : Path) (lines : List Text) {a b : List Record} (perm : a.Perm b)
    (distinct : (a.map Record.line).Nodup) (updates : List Update) :
    ofRecords path lines b updates = ofRecords path lines a updates := by
  have left := line_order_increasing distinct
  have right := line_order_increasing ((perm.map Record.line).nodup_iff.mp distinct)
  have same : inLineOrder b = inLineOrder a := right.eq_of_same left fun record => by
    simp [perm.mem_iff]
  refine walk_congr path [] updates fun index _ _ => ?_
  rw [← at_line_order b, same, at_line_order a]

-- The edit as the records and updates determine it, line by line. One entry stands for each line and
-- the updates that no record takes follow. The second to last part is the order in which records are
-- given, the last one the pass over them in line order, none of whose cuts is refused.
theorem edit_by_place (path : Path) (lines : List Text) (records : List Record)
    (updates : List Update) :
    let edit := ofRecords path lines records updates
    let taking := kept lines.length records
    let added := leftOver taking updates
    edit.lines.length = lines.length + added.length ∧
      edit.lines.drop lines.length = added.map Update.declaration ∧
      (∀ index < lines.length, (∀ record ∈ taking, record.line ≠ index) →
        edit.lines[index]? = lines[index]?) ∧
      (∀ (kind : Kind) (place : Nat) (record : Record),
        (Record.ofKind kind taking)[place]? = some record →
        edit.lines[record.line]? = some (match (ofKind kind updates)[place]? with
          | some update => update.declaration
          | none => record.declaration)) ∧
      (∀ other, records.Perm other → (records.map Record.line).Nodup →
        ofRecords path lines other updates = edit) ∧
      pass? path lines 0 [] updates (inLineOrder records) = some edit := by
  intro edit taking added
  have counts : taking = counted records lines.length := kept_eq_counted lines.length records
  have unspent : added = unused (met records lines.length) updates := by
    have same : (fun kind => (Record.ofKind kind taking).length) = met records lines.length := by
      funext kind
      rw [counts, met_eq_length]
    exact (left_over_eq_unused taking updates).trans (congrArg (unused · updates) same)
  have written : edit.lines =
      lines.mapIdx (textAt records updates) ++ added.map Update.declaration := by
    rw [unspent]
    exact lines_of_records path lines records updates
  have at_old {index : Nat} (within : index < lines.length) :
      edit.lines[index]? = lines[index]?.map (textAt records updates index) := by
    rw [written, List.getElem?_append_left (by rwa [List.length_mapIdx]), List.getElem?_mapIdx]
  refine ⟨?_, ?_, ?_, ?_, fun other perm distinct => ?_, ?_⟩
  · rw [written, List.length_append, List.length_mapIdx, List.length_map]
  · rw [written, List.drop_left' (by rw [List.length_mapIdx])]
  · intro index within free
    have unmarked : at? records index = none := by
      cases here : at? records index with
      | none => rfl
      | some record =>
          have line := line_of_at here
          refine absurd line (free record ?_)
          rw [counts, mem_counted, line]
          exact ⟨within, here⟩
    rw [at_old within, List.getElem?_eq_getElem within, Option.map_some, textAt, unmarked]
  · intro kind place record placed
    rw [counts] at placed
    obtain ⟨among, same⟩ := List.mem_filter.mp (List.mem_of_getElem? placed)
    obtain ⟨within, here⟩ := mem_counted.mp among
    obtain rfl : record.kind = kind := by simpa using same
    rw [at_old within, List.getElem?_eq_getElem within, Option.map_some, textAt, here]
    cases next : (ofKind record.kind updates)[place]? with
    | none => simp only [emitted, taken?, met_of_place placed, next]
    | some update => simp only [emitted, taken?, met_of_place placed, next]
  · exact of_records_of_perm path lines perm distinct updates
  · have passed := pass_eq_walk path lines (line_order_sorted records) [] updates (Nat.zero_le _)
    rw [List.drop_zero] at passed
    rw [passed]
    exact congrArg some (walk_congr path [] updates fun index _ _ => at_line_order records index)

-- The two records of one kind are given in the wrong order, and a third one is at no line.
theorem edit_of_unordered_records :
    let path : Path := ⟨"A.cs".toList⟩
    let lines : List Text := ["// a".toList, "// b".toList, "// c".toList]
    let late : Record := ⟨.file, "2.0.0.0".toList, .plain, 2, path⟩
    let early : Record := ⟨.file, "1.0.0.0".toList, .plain, 0, path⟩
    let stale : Record := ⟨.assembly, "1.0.0.0".toList, .plain, 7, path⟩
    let updates : List Update := [⟨.file, "3.0.0.0".toList⟩, ⟨.assembly, "4.0.0.0".toList⟩]
    let edit := ofRecords path lines [late, early, stale] updates
    Record.ofKind .file (kept 3 [late, early, stale]) = [early, late] ∧
      edit.lines[0]? = some (Update.declaration ⟨.file, "3.0.0.0".toList⟩) ∧
      edit.lines[1]? = some "// b".toList ∧ edit.lines[2]? = some late.declaration ∧
      edit.lines.drop 3 = [Update.declaration ⟨.assembly, "4.0.0.0".toList⟩] ∧
      [late, early, stale].Perm [stale, early, late] ∧
      ([late, early, stale].map Record.line).Nodup ∧
      ofRecords path lines [stale, early, late] updates = edit := by
  intro path lines late early stale updates edit
  have counts : kept 3 [late, early, stale] = [early, late] := by
    rw [kept_eq_counted]
    decide +kernel
  have taking : Record.ofKind .file (kept 3 [late, early, stale]) = [early, late] := by
    rw [counts]
    decide +kernel
  have free : ∀ record ∈ kept 3 [late, early, stale], record.line ≠ 1 := by
    rw [counts]
    decide +kernel
  have left : leftOver (kept 3 [late, early, stale]) updates = [⟨.assembly, "4.0.0.0".toList⟩] := by
    rw [counts]
    decide +kernel
  have perm : [late, early, stale].Perm [stale, early, late] := List.reverse_perm [stale, early, late]
  have distinct : ([late, early, stale].map Record.line).Nodup := by decide +kernel
  obtain ⟨-, behind, copied, placed, ordered, -⟩ :=
    edit_by_place path lines [late, early, stale] updates
  refine ⟨taking, placed .file 0 early ?_, copied 1 (by decide) free, placed .file 1 late ?_,
    behind.trans (congrArg (List.map Update.declaration) left), perm, distinct,
    ordered _ perm distinct⟩
  · exact congrArg (·[0]?) taking
  · exact congrArg (·[1]?) taking

end AssemblyVersions.Edit
