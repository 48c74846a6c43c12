import AssemblyVersions.Text
import Mathlib

set_option autoImplicit false

namespace AssemblyVersions

inductive Pattern where
  | oneOf (texts : List Text)
  | run (among : Char → Bool)
  | seq (first second : Pattern)
  | group (body : Pattern)

namespace Pattern

structure Reading where
  text : Text
  groups : List Text
  rest : Text
deriving DecidableEq, Repr

def runs (among : Char → Bool) : Text → List (Text × Text)
  | [] => [([], [])]
  | c :: text =>
      if among c then (runs among text).map (fun cut => (c :: cut.1, cut.2)) ++ [([], c :: text)]
      else [([], c :: text)]

def readings : Pattern → Text → List Reading
  | .oneOf texts, text =>
      texts.filterMap fun lead => (Text.after? lead text).map fun rest => ⟨lead, [], rest⟩
  | .run among, text => (runs among text).map fun cut => ⟨cut.1, [], cut.2⟩
  | .seq first second, text =>
      (readings first text).flatMap fun a =>
        (readings second a.rest).map fun b => ⟨a.text ++ b.text, a.groups ++ b.groups, b.rest⟩
  | .group body, text =>
      (readings body text).map fun reading => { reading with groups := reading.text :: reading.groups }

def match? (pattern : Pattern) (text : Text) : Option Reading := (pattern.readings text).head?

def Takes : Pattern → Text → List Text → Prop
  | .oneOf texts, text, groups => text ∈ texts ∧ groups = []
  | .run among, text, groups => (∀ c ∈ text, among c = true) ∧ groups = []
  | .seq first second, text, groups => ∃ front frontGroups back backGroups,
      Takes first front frontGroups ∧ Takes second back backGroups ∧
        text = front ++ back ∧ groups = frontGroups ++ backGroups
  | .group body, text, groups => ∃ inner, Takes body text inner ∧ groups = text :: inner

@[simp] theorem takes_one_of {texts : List Text} {text : Text} {groups : List Text} :
    (oneOf texts).Takes text groups ↔ text ∈ texts ∧ groups = [] :=
  Iff.rfl

@[simp] theorem takes_run {among : Char → Bool} {text : Text} {groups : List Text} :
    (run among).Takes text groups ↔ (∀ c ∈ text, among c = true) ∧ groups = [] :=
  Iff.rfl

@[simp] theorem takes_seq_fixed {lead text : Text} {second : Pattern} {groups : List Text} :
    (seq (oneOf [lead]) second).Takes text groups ↔
      ∃ back, second.Takes back groups ∧ text = lead ++ back := by
  simp only [Takes, List.mem_singleton]
  constructor
  · rintro ⟨front, _, back, _, ⟨fixed, rfl⟩, taken, same, rfl⟩
    exact ⟨back, taken, fixed ▸ same⟩
  · intro held
    obtain ⟨back, taken, same⟩ := held
    exact ⟨lead, [], back, groups, ⟨rfl, rfl⟩, taken, same, rfl⟩

@[simp] theorem takes_seq_group {body second : Pattern} {text : Text} {groups : List Text} :
    (seq (group body) second).Takes text groups ↔ ∃ front inner back after,
      body.Takes front inner ∧ second.Takes back after ∧
        text = front ++ back ∧ groups = front :: (inner ++ after) := by
  simp only [Takes]
  constructor
  · rintro ⟨front, _, back, after, ⟨inner, first, rfl⟩, taken, same, rfl⟩
    exact ⟨front, inner, back, after, first, taken, same, rfl⟩
  · intro held
    obtain ⟨front, inner, back, after, first, taken, same, marked⟩ := held
    exact ⟨front, front :: inner, back, after, ⟨inner, first, rfl⟩, taken, same, marked⟩

@[simp] theorem mem_runs {among : Char → Bool} {text run rest : Text} :
    (run, rest) ∈ runs among text ↔ run ++ rest = text ∧ ∀ c ∈ run, among c = true := by
  induction text generalizing run with
  | nil => cases run <;> simp [runs]
  | cons c text ih =>
      by_cases inside : among c = true
      · rw [runs, if_pos inside]
        cases run with
        | nil => simp
        | cons d run =>
            have longer : (d :: run, rest) ∈
                (runs among text).map (fun cut => (c :: cut.1, cut.2)) ↔
                  c = d ∧ (run, rest) ∈ runs among text := by
              simp [and_left_comm]
            have shortest : (d :: run, rest) ∉ [(([] : Text), c :: text)] := by simp
            rw [List.mem_append, longer, or_iff_left shortest, ih, List.cons_append,
              List.forall_mem_cons, List.cons.injEq]
            constructor
            · intro held
              obtain ⟨same, cut, every⟩ := held
              exact ⟨⟨same.symm, cut⟩, same ▸ inside, every⟩
            · intro held
              obtain ⟨⟨same, cut⟩, _, every⟩ := held
              exact ⟨same.symm, cut, every⟩
      · rw [runs, if_neg inside]
        cases run with
        | nil => simp
        | cons d run =>
            refine iff_of_false (by simp) fun cut => inside ?_
            rw [← (List.cons.inj cut.1).1]
            exact cut.2 d List.mem_cons_self

theorem mem_readings {pattern : Pattern} {text : Text} {reading : Reading} :
    reading ∈ pattern.readings text ↔
      text = reading.text ++ reading.rest ∧ pattern.Takes reading.text reading.groups := by
  induction pattern generalizing text reading with
  | oneOf texts =>
      simp only [readings, List.mem_filterMap, Option.map_eq_some_iff, Text.after_eq_some_iff, Takes]
      constructor
      · rintro ⟨lead, listed, rest, same, rfl⟩
        exact ⟨same, listed, rfl⟩
      · intro held
        obtain ⟨same, listed, bare⟩ := held
        exact ⟨reading.text, listed, reading.rest, same, by rw [← bare]⟩
  | run among =>
      simp only [readings, List.mem_map, Prod.exists, mem_runs, Takes]
      constructor
      · rintro ⟨run, rest, ⟨same, every⟩, rfl⟩
        exact ⟨same.symm, every, rfl⟩
      · intro held
        obtain ⟨same, every, bare⟩ := held
        exact ⟨reading.text, reading.rest, ⟨same.symm, every⟩, by rw [← bare]⟩
  | seq first second ihFirst ihSecond =>
      simp only [readings, List.mem_flatMap, List.mem_map, ihFirst, ihSecond, Takes]
      constructor
      · rintro ⟨a, ⟨same, front⟩, b, ⟨next, back⟩, rfl⟩
        refine ⟨?_, a.text, a.groups, b.text, b.groups, front, back, rfl, rfl⟩
        rw [same, next, List.append_assoc]
      · intro held
        obtain ⟨same, front, frontGroups, back, backGroups, takesFront, takesBack, text_eq,
          groups_eq⟩ := held
        refine ⟨⟨front, frontGroups, back ++ reading.rest⟩, ⟨?_, takesFront⟩,
          ⟨back, backGroups, reading.rest⟩, ⟨rfl, takesBack⟩, ?_⟩
        · rw [same, text_eq, List.append_assoc]
        · rw [← text_eq, ← groups_eq]
  | group body ih =>
      simp only [readings, List.mem_map, ih, Takes]
      constructor
      · rintro ⟨inner, ⟨same, taken⟩, rfl⟩
        exact ⟨same, inner.groups, taken, rfl⟩
      · intro held
        obtain ⟨same, inner, taken, groups_eq⟩ := held
        exact ⟨⟨reading.text, inner, reading.rest⟩, ⟨same, taken⟩, by rw [← groups_eq]⟩

end Pattern

end AssemblyVersions
