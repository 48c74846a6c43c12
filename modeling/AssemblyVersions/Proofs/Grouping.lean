import AssemblyVersions.Report
import Mathlib

set_option autoImplicit false

namespace AssemblyVersions

section Firsts

variable {α κ : Type} [BEq κ]

def firsts (key : α → κ) (items : List α) : List α :=
  items.eraseDupsBy fun a b => key a == key b

@[simp] theorem firsts_id (met : List κ) : firsts id met = met.eraseDups := rfl

theorem firsts_cons (key : α → κ) (item : α) (items : List α) :
    firsts key (item :: items) =
      item :: firsts key (items.filter fun other => key other != key item) := by
  simp only [firsts, List.eraseDupsBy_cons, Bool.decide_eq_false]
  rfl

@[simp] theorem firsts_eq_nil {key : α → κ} {items : List α} : firsts key items = [] ↔ items = [] := by
  cases items with
  | nil => exact iff_of_true rfl rfl
  | cons item items =>
      rw [firsts_cons]
      exact iff_of_false (List.cons_ne_nil _ _) (List.cons_ne_nil _ _)

-- What has been met, each once, in the order in which it was first met.
structure OnceInOrder (met listed : List κ) : Prop where
  among : ∀ k, k ∈ listed ↔ k ∈ met
  order : listed.Pairwise fun a b => met.idxOf a < met.idxOf b

theorem OnceInOrder.nodup {met listed : List κ} (once : OnceInOrder met listed) : listed.Nodup := by
  refine once.order.imp fun {a b} less => ?_
  rintro rfl
  exact Nat.lt_irrefl _ less

variable [LawfulBEq κ]

theorem mem_keys_others {key : α → κ} {first : α} {items : List α} {k : κ} (other : k ≠ key first) :
    k ∈ (items.filter fun item => key item != key first).map key ↔ k ∈ (first :: items).map key := by
  rw [List.map_cons, List.mem_cons, or_iff_right other, List.mem_map, List.mem_map]
  refine exists_congr fun item => ?_
  rw [List.mem_filter, bne_iff_ne, and_assoc]
  refine and_congr_right fun _ => and_iff_right_of_imp ?_
  rintro rfl
  exact other

theorem firsts_concat (key : α → κ) (items : List α) (item : α) :
    firsts key (items ++ [item]) =
      if key item ∈ items.map key then firsts key items else firsts key items ++ [item] := by
  induction extent : items.length using Nat.strongRecOn generalizing items with
  | ind bound ih =>
      cases items with
      | nil => rfl
      | cons first items =>
          rw [List.cons_append, firsts_cons, firsts_cons, List.filter_append]
          by_cases same : key item = key first
          · have gone : [item].filter (fun other => key other != key first) = [] := by simp [same]
            have met : key item ∈ (first :: items).map key := by simp [same]
            rw [gone, List.append_nil, if_pos met]
          · have kept : [item].filter (fun other => key other != key first) = [item] := by simp [same]
            have shorter : (items.filter fun other => key other != key first).length < bound := by
              rw [← extent, List.length_cons]
              exact Nat.lt_succ_of_le (List.length_filter_le _ _)
            rw [kept, ih _ shorter _ rfl, if_congr (mem_keys_others same) rfl rfl]
            split <;> rfl

@[simp] theorem mem_keys_firsts {key : α → κ} {items : List α} {k : κ} :
    k ∈ (firsts key items).map key ↔ k ∈ items.map key := by
  induction items using List.reverseRecOn with
  | nil => rfl
  | append_singleton items item ih =>
      rw [firsts_concat, List.map_append, List.mem_append, ← ih]
      split
      · rename_i met
        refine (or_iff_left_of_imp fun last => ?_).symm
        rw [List.map_singleton, List.mem_singleton] at last
        rw [ih, last]
        exact met
      · rw [List.map_append, List.mem_append]

theorem once_in_order_firsts (key : α → κ) (items : List α) :
    OnceInOrder (items.map key) ((firsts key items).map key) := by
  refine ⟨fun _ => mem_keys_firsts, ?_⟩
  induction items using List.reverseRecOn with
  | nil => exact List.Pairwise.nil
  | append_singleton items item ih =>
      have before : ((firsts key items).map key).Pairwise fun a b =>
          ((items ++ [item]).map key).idxOf a < ((items ++ [item]).map key).idxOf b := by
        refine ih.imp_of_mem fun {a b} first second less => ?_
        rw [List.map_append, List.idxOf_append_of_mem (mem_keys_firsts.mp first),
          List.idxOf_append_of_mem (mem_keys_firsts.mp second)]
        exact less
      rw [firsts_concat]
      split
      · exact before
      · rename_i fresh
        have added : (firsts key items ++ [item]).map key =
            (firsts key items).map key ++ [key item] := List.map_append
        rw [added, List.pairwise_append]
        refine ⟨before, List.pairwise_singleton _ _, fun a first last is_last => ?_⟩
        have met := mem_keys_firsts.mp first
        obtain rfl := List.mem_singleton.mp is_last
        rw [List.map_append, List.idxOf_append_of_mem met, List.idxOf_append_of_notMem fresh]
        exact Nat.lt_add_right _ (List.idxOf_lt_length_of_mem met)

theorem nodup_firsts (key : α → κ) (items : List α) : ((firsts key items).map key).Nodup :=
  (once_in_order_firsts key items).nodup

theorem keys_firsts_perm (key : α → κ) {items others : List α} (perm : items.Perm others) :
    ((firsts key items).map key).Perm ((firsts key others).map key) := by
  rw [List.perm_ext_iff_of_nodup (nodup_firsts key items) (nodup_firsts key others)]
  intro k
  rw [mem_keys_firsts, mem_keys_firsts]
  exact (perm.map key).mem_iff

theorem once_in_order_erase_dups (met : List κ) : OnceInOrder met met.eraseDups := by
  have once := once_in_order_firsts id met
  rwa [List.map_id, List.map_id, firsts_id] at once

theorem erase_dups_concat (met : List κ) (k : κ) :
    (met ++ [k]).eraseDups = if k ∈ met then met.eraseDups else met.eraseDups ++ [k] := by
  have split := firsts_concat id met k
  rwa [List.map_id, id, firsts_id, firsts_id] at split

theorem length_firsts_le_one {key : α → κ} {items : List α} :
    (firsts key items).length ≤ 1 ↔ ∀ a ∈ items, ∀ b ∈ items, key a = key b := by
  classical
  have size : ((firsts key items).map key).toFinset.card = (firsts key items).length := by
    rw [List.toFinset_card_of_nodup (nodup_firsts key items), List.length_map]
  rw [← size, Finset.card_le_one]
  simp only [List.mem_toFinset, mem_keys_firsts]
  constructor
  · intro same a listed b among
    exact same _ (List.mem_map_of_mem listed) _ (List.mem_map_of_mem among)
  · intro agree k first other second
    obtain ⟨a, listed, rfl⟩ := List.mem_map.mp first
    obtain ⟨b, among, rfl⟩ := List.mem_map.mp second
    exact agree a listed b among

end Firsts

section Entries

variable {α κ : Type} [BEq κ] [LawfulBEq κ]

theorem lookup_table (listed : List κ) (held : κ → α) (key : κ) :
    (listed.map fun k => (k, held k)).lookup key =
      if key ∈ listed then some (held key) else none := by
  induction listed with
  | nil => rfl
  | cons other listed ih =>
      by_cases same : key = other
      · simp [same]
      · simp [List.lookup_cons, beq_eq_false_iff_ne.mpr same, ih, same]

theorem amend_table [DecidableEq κ] (key : κ) (change : Option α → α) {listed : List κ}
    (once : listed.Nodup) (held : κ → α) :
    amend key change (listed.map fun k => (k, held k)) =
      if key ∈ listed then
        listed.map fun k => (k, if k = key then change (some (held k)) else held k)
      else (listed.map fun k => (k, held k)) ++ [(key, change none)] := by
  induction listed with
  | nil => rfl
  | cons other listed ih =>
      obtain ⟨fresh, later⟩ := List.nodup_cons.mp once
      rw [List.map_cons, amend]
      by_cases same : other = key
      · have rest : listed.map (fun k => (k, if k = key then change (some (held k)) else held k)) =
            listed.map fun k => (k, held k) := by
          refine List.map_congr_left fun k among => ?_
          have apart : k ≠ key := by
            rintro rfl
            exact fresh (same ▸ among)
          rw [if_neg apart]
        rw [if_pos same, if_pos (List.mem_cons.mpr (.inl same.symm)), List.map_cons, if_pos same, rest]
      · have further : key ∈ other :: listed ↔ key ∈ listed := by
          rw [List.mem_cons, or_iff_right (Ne.symm same)]
        rw [if_neg same, ih later, if_congr further rfl rfl, List.map_cons, if_neg same]
        split <;> rfl

end Entries

section Grouped

variable {α β κ : Type} [BEq κ]

def groupedBy (key : α → κ) (summary : List α → β) (items : List α) : List (κ × β) :=
  (items.map key).eraseDups.map fun k => (k, summary (items.filter fun item => key item == k))

theorem keys_grouped_by (key : α → κ) (summary : List α → β) (items : List α) :
    (groupedBy key summary items).map Prod.fst = (items.map key).eraseDups := by
  rw [groupedBy, List.map_map]
  exact List.map_id _

variable [LawfulBEq κ]

theorem filter_eq_nil_of_unmet {key : α → κ} {items : List α} {k : κ} (unmet : k ∉ items.map key) :
    (items.filter fun item => key item == k) = [] := by
  refine List.filter_eq_nil_iff.mpr fun item among same => unmet ?_
  exact List.mem_map.mpr ⟨item, among, eq_of_beq same⟩

theorem lookup_grouped_by (key : α → κ) (summary : List α → β) (items : List α) (k : κ) :
    ((groupedBy key summary items).lookup k).getD (summary []) =
      summary (items.filter fun item => key item == k) := by
  rw [groupedBy, lookup_table]
  split
  · rfl
  · rename_i unlisted
    rw [List.mem_eraseDups] at unlisted
    rw [filter_eq_nil_of_unmet unlisted]
    rfl

theorem grouped_by_concat [DecidableEq κ] (key : α → κ) {summary : List α → β} (step : α → β → β)
    (grows : ∀ items item, summary (items ++ [item]) = step item (summary items)) (items : List α)
    (item : α) :
    groupedBy key summary (items ++ [item]) =
      amend (key item) (fun held => step item (held.getD (summary [])))
        (groupedBy key summary items) := by
  have entry (k : κ) : summary ((items ++ [item]).filter fun other => key other == k) =
      if k = key item then step item (summary (items.filter fun other => key other == k))
      else summary (items.filter fun other => key other == k) := by
    rw [List.filter_append]
    split
    · rename_i same
      rw [List.filter_singleton, same, beq_self_eq_true, cond_true, grows]
    · rename_i apart
      rw [List.filter_singleton, beq_eq_false_iff_ne.mpr (Ne.symm apart), cond_false, List.append_nil]
  rw [groupedBy, List.map_append, List.map_singleton, erase_dups_concat, groupedBy,
    amend_table _ _ (once_in_order_erase_dups _).nodup]
  simp only [List.mem_eraseDups, entry]
  split
  · rfl
  · rename_i unmet
    rw [List.map_append, List.map_singleton, if_pos rfl, filter_eq_nil_of_unmet unmet]
    congr 1
    refine List.map_congr_left fun k listed => ?_
    have apart : k ≠ key item := by
      rintro rfl
      exact unmet (List.mem_eraseDups.mp listed)
    rw [if_neg apart]

end Grouped

end AssemblyVersions
