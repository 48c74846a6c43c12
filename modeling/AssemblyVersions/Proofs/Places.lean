import AssemblyVersions.Disk
import AssemblyVersions.Proofs.OctetOrder

set_option autoImplicit false

namespace AssemblyVersions

structure IsName (name : Text) : Prop where
  filled : name ≠ []
  undivided : '/' ∉ name
  notHere : name ≠ ['.']
  notUp : name ≠ ['.', '.']

instance (name : Text) : Decidable (IsName name) :=
  decidable_of_iff (name ≠ [] ∧ '/' ∉ name ∧ name ≠ ['.'] ∧ name ≠ ['.', '.'])
    ⟨fun ⟨filled, undivided, notHere, notUp⟩ => ⟨filled, undivided, notHere, notUp⟩,
      fun ⟨filled, undivided, notHere, notUp⟩ => ⟨filled, undivided, notHere, notUp⟩⟩

def Node.under? : Location → Node → Option Node
  | [], node => some node
  | name :: place, .folder entries => (entries.find? name).bind (under? place)
  | _ :: _, _ => none

mutual
-- A tree as a file system holds it: within a folder every entry has a name of its own.
def Node.Arranged : Node → Prop
  | .file _ => True
  | .link _ => True
  | .folder entries => entries.Arranged
def Folder.Arranged : Folder → Prop
  | .nil => True
  | .cons name node rest =>
      IsName name ∧ rest.find? name = none ∧ node.Arranged ∧ rest.Arranged
end

theorem Folder.find_cons_eq_some {other name : Text} {held found : Node} {rest : Folder} :
    (cons other held rest).find? name = some found ↔
      other = name ∧ held = found ∨ other ≠ name ∧ rest.find? name = some found := by
  rw [find?]
  by_cases same : other = name
  · rw [if_pos same, Option.some.injEq, or_iff_left fun apart => apart.1 same]
    exact (and_iff_right same).symm
  · rw [if_neg same, or_iff_right fun first => same first.1]
    exact (and_iff_right same).symm

theorem Node.under_cons_eq_some {entries : Folder} {step : Text} {place : Location} {found : Node} :
    (Node.folder entries).under? (step :: place) = some found ↔
      ∃ node, entries.find? step = some node ∧ node.under? place = some found :=
  Option.bind_eq_some_iff

theorem Node.eq_of_leaf {node : Node} (leaf : ∀ entries, node ≠ .folder entries) {place : Location}
    {found : Node} (held : node.under? place = some found) : place = [] ∧ found = node := by
  cases place with
  | nil => exact ⟨rfl, (Option.some.inj held).symm⟩
  | cons step place =>
      cases node with
      | file bytes => cases held
      | link target => cases held
      | folder entries => exact absurd rfl (leaf entries)

theorem Folder.find_arranged {entries : Folder} (arranged : entries.Arranged) {name : Text}
    {node : Node} (found : entries.find? name = some node) : IsName name ∧ node.Arranged := by
  match entries with
  | .nil => cases found
  | .cons other held rest =>
      obtain ⟨proper, -, inner, arranged⟩ := arranged
      obtain ⟨rfl, rfl⟩ | ⟨-, later⟩ := find_cons_eq_some.mp found
      · exact ⟨proper, inner⟩
      · exact find_arranged arranged later

theorem Node.names_of_under {node : Node} (arranged : node.Arranged) {place : Location}
    {found : Node} (held : node.under? place = some found) : ∀ name ∈ place, IsName name := by
  induction place generalizing node with
  | nil => exact fun name none_held => nomatch none_held
  | cons step place ih =>
      cases node with
      | file bytes => cases held
      | link target => cases held
      | folder entries =>
          obtain ⟨inner, inside, held⟩ := under_cons_eq_some.mp held
          obtain ⟨proper, arranged⟩ := Folder.find_arranged arranged inside
          exact List.forall_mem_cons.mpr ⟨proper, ih arranged held⟩

def Location.Before : Location → Location → Prop :=
  List.Lex fun a b => Utf8.encode a < Utf8.encode b

namespace Location

@[simp] theorem before_cons {a b : Text} {place other : Location} :
    Before (a :: place) (b :: other) ↔
      Utf8.encode a < Utf8.encode b ∨ a = b ∧ Before place other := by
  constructor
  · intro before
    cases before with
    | rel less => exact .inl less
    | cons later => exact .inr ⟨rfl, later⟩
  · rintro (less | ⟨rfl, later⟩)
    · exact .rel less
    · exact .cons later

theorem not_before_nil (place : Location) : ¬ Before place [] := by
  intro before
  cases before

theorem before_asymm {place other : Location} (before : Before place other) :
    ¬ Before other place := by
  induction before with
  | nil => exact not_before_nil _
  | rel less =>
      rw [before_cons, not_or]
      refine ⟨List.lt_asymm less, ?_⟩
      rintro ⟨rfl, -⟩
      exact List.lt_irrefl _ less
  | cons later ih =>
      rw [before_cons, not_or]
      exact ⟨List.lt_irrefl _, fun ⟨_, again⟩ => ih again⟩

end Location

namespace Path

theorem pieces_filled (text : Text) : pieces text ≠ [] := by
  cases text with
  | nil => exact List.cons_ne_nil _ _
  | cons c rest =>
      rw [pieces]
      split
      · exact List.cons_ne_nil _ _
      · split <;> exact List.cons_ne_nil _ _

@[simp] theorem pieces_append (front rest : Text) :
    pieces (front ++ '/' :: rest) = pieces front ++ pieces rest := by
  induction front with
  | nil => rfl
  | cons c front ih =>
      rw [List.cons_append, pieces, pieces, ih]
      split
      · rfl
      · obtain ⟨piece, more, cut⟩ := List.exists_cons_of_ne_nil (pieces_filled front)
        rw [cut]
        rfl

@[simp] theorem pieces_undivided {name : Text} (undivided : '/' ∉ name) : pieces name = [name] := by
  induction name with
  | nil => rfl
  | cons c name ih =>
      rw [List.mem_cons, not_or] at undivided
      rw [pieces, if_neg (Ne.symm undivided.1), ih undivided.2]

theorem of_piece_name {name : Text} (proper : IsName name) :
    Component.ofPiece? name = some (.name name) := by
  rw [Component.ofPiece?, if_neg (not_or.mpr ⟨proper.filled, proper.notHere⟩), if_neg proper.notUp]

theorem components_divided {front name : Text} (proper : IsName name) :
    components ⟨front ++ '/' :: name⟩ = components ⟨front ++ ['/']⟩ ++ [.name name] := by
  have absolute : isAbsolute ⟨front ++ '/' :: name⟩ = isAbsolute ⟨front ++ ['/']⟩ := by
    cases front <;> rfl
  have start : (pieces front ++ [name]).head? = (pieces front ++ [[]]).head? := by
    rw [List.head?_append_of_ne_nil _ (pieces_filled front),
      List.head?_append_of_ne_nil _ (pieces_filled front)]
  have last : [name].filterMap Component.ofPiece? = [.name name] := by
    rw [List.filterMap_cons, of_piece_name proper, List.filterMap_nil]
  have empty : [([] : Text)].filterMap Component.ofPiece? = [] := rfl
  simp only [components, pieces_append, pieces_undivided proper.undivided,
    pieces_undivided List.not_mem_nil, absolute, start, List.filterMap_append, last, empty,
    List.append_nil]
  split
  · rfl
  · split <;> rfl

theorem components_ended {text : Text} (filled : text ≠ []) :
    components ⟨text ++ ['/']⟩ = components ⟨text⟩ := by
  have absolute : isAbsolute ⟨text ++ ['/']⟩ = isAbsolute ⟨text⟩ := by
    cases text with
    | nil => exact absurd rfl filled
    | cons c text => rfl
  have start : (pieces text ++ pieces []).head? = (pieces text).head? :=
    List.head?_append_of_ne_nil _ (pieces_filled text)
  have empty : (pieces []).filterMap Component.ofPiece? = [] := rfl
  simp only [components, pieces_append, absolute, start, List.filterMap_append, empty,
    List.append_nil]

theorem components_child {path : Path} (filled : path.text ≠ []) {name : Text}
    (proper : IsName name) : (path.child name).components = path.components ++ [.name name] := by
  obtain ⟨text⟩ := path
  rw [child]
  split
  · rename_i ended
    obtain ⟨front, rfl⟩ : ∃ front, text = front ++ ['/'] :=
      List.getLast?_eq_some_iff.mp (ended.resolve_left filled)
    rw [List.append_assoc]
    exact components_divided proper
  · rw [components_divided proper, components_ended filled]

theorem child_filled (path : Path) {name : Text} (proper : IsName name) :
    (path.child name).text ≠ [] := by
  rw [child]
  split
  · exact fun empty => proper.filled (List.append_eq_nil_iff.mp empty).2
  · exact fun empty => List.cons_ne_nil _ _ (List.append_eq_nil_iff.mp empty).2

def below (path : Path) (place : Location) : Path := place.foldl child path

theorem components_below {path : Path} (filled : path.text ≠ []) {place : Location}
    (proper : ∀ name ∈ place, IsName name) :
    (path.below place).components = path.components ++ place.map .name := by
  induction place generalizing path with
  | nil => exact (List.append_nil _).symm
  | cons name place ih =>
      rw [List.forall_mem_cons] at proper
      have later := ih (path.child_filled proper.1) proper.2
      rw [components_child filled proper.1, List.append_assoc] at later
      exact later

theorem file_name_below {path : Path} (filled : path.text ≠ []) {parent : Location} {name : Text}
    (proper : ∀ step ∈ parent ++ [name], IsName step) :
    (path.below (parent ++ [name])).fileName? = some name := by
  rw [fileName?, components_below filled proper, List.map_append, ← List.append_assoc,
    List.map_singleton, List.getLast?_append, List.getLast?_singleton]
  rfl

@[simp] theorem component_order_self (component : Component) : component.order component = .eq := by
  rw [Component.order, Std.compare_self, Std.compare_self]
  rfl

theorem component_order_names {a b : Text} (less : Utf8.encode a < Utf8.encode b) :
    Component.order (.name a) (.name b) = .lt := by
  have names : compare a b = .lt := Utf8.compare_eq_lt_iff.mpr less
  exact names

theorem order_common (front : List Component) (a b : List Component) :
    List.compareLex Component.order (front ++ a) (front ++ b) = List.compareLex Component.order a b := by
  induction front with
  | nil => rfl
  | cons component front ih =>
      rw [List.cons_append, List.cons_append, List.compareLex_cons_cons, component_order_self]
      exact ih

theorem order_below {path : Path} (filled : path.text ≠ []) {place other : Location}
    (proper : ∀ name ∈ place, IsName name) (properly : ∀ name ∈ other, IsName name)
    (before : place.Before other) : (path.below place).order (path.below other) = .lt := by
  have names : List.compareLex Component.order (place.map .name) (other.map .name) = .lt := by
    clear proper properly
    induction before with
    | nil => exact List.compareLex_nil_cons
    | rel less =>
        rw [List.map_cons, List.map_cons, List.compareLex_cons_cons, component_order_names less]
        rfl
    | cons later ih =>
        rw [List.map_cons, List.map_cons, List.compareLex_cons_cons, component_order_self]
        exact ih
  rw [order, components_below filled proper, components_below filled properly, order_common, names]

end Path

end AssemblyVersions
