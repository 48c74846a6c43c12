import AssemblyVersions.Proofs.Utf8

set_option autoImplicit false

namespace AssemblyVersions.Utf8

theorem octet_before {m n : Nat} {a b : Bytes} (left : m < 256) (right : n < 256) (ordered : m ≤ n)
    (later : m = n → a < b) : UInt8.ofNat m :: a < UInt8.ofNat n :: b := by
  rw [List.cons_lt_cons_iff, UInt8.lt_iff_toNat_lt, UInt8.toNat_ofNat_of_lt' left,
    UInt8.toNat_ofNat_of_lt' right]
  rcases Nat.lt_or_eq_of_le ordered with less | same
  · exact .inl less
  · exact .inr ⟨by rw [same], later same⟩

theorem char_before {c d : Char} (less : c < d) (a b : Bytes) :
    String.utf8EncodeChar c ++ a < String.utf8EncodeChar d ++ b := by
  have least : c.val.toNat < d.val.toNat := UInt32.lt_iff_toNat_lt.mp less
  have bound : d.val.toNat < 0x110000 := by
    have valid : d.val.toNat < 0xD800 ∨ 0xDFFF < d.val.toNat ∧ d.val.toNat < 0x110000 := d.valid
    omega
  unfold String.utf8EncodeChar
  generalize c.val.toNat = v at least
  generalize d.val.toNat = w at least bound
  dsimp only
  -- Fewer octets begin with a lesser one; of equally many one is compared after the other.
  split_ifs
  all_goals simp only [List.cons_append, List.nil_append]
  · exact octet_before (by omega) (by omega) (by omega) (by omega)
  · exact octet_before (by omega) (by omega) (by omega) (by omega)
  · exact octet_before (by omega) (by omega) (by omega) (by omega)
  · exact octet_before (by omega) (by omega) (by omega) (by omega)
  · omega
  · refine octet_before (by omega) (by omega) (by omega) fun lead => ?_
    exact octet_before (by omega) (by omega) (by omega) (by omega)
  · exact octet_before (by omega) (by omega) (by omega) (by omega)
  · exact octet_before (by omega) (by omega) (by omega) (by omega)
  · omega
  · omega
  · refine octet_before (by omega) (by omega) (by omega) fun lead => ?_
    refine octet_before (by omega) (by omega) (by omega) fun second => ?_
    exact octet_before (by omega) (by omega) (by omega) (by omega)
  · exact octet_before (by omega) (by omega) (by omega) (by omega)
  · omega
  · omega
  · omega
  · refine octet_before (by omega) (by omega) (by omega) fun lead => ?_
    refine octet_before (by omega) (by omega) (by omega) fun second => ?_
    refine octet_before (by omega) (by omega) (by omega) fun third => ?_
    exact octet_before (by omega) (by omega) (by omega) (by omega)

theorem before_of_compare {a b : Text} (less : compare a b = .lt) : encode a < encode b := by
  induction a generalizing b with
  | nil =>
      cases b with
      | nil => cases less
      | cons d b =>
          obtain ⟨octet, rest, some_octet⟩ :=
            List.exists_cons_of_ne_nil (encode_filled (List.cons_ne_nil d b))
          rw [some_octet]
          exact List.nil_lt_cons octet rest
  | cons c a ih =>
      cases b with
      | nil => cases less
      | cons d b =>
          rw [List.compare_cons_cons] at less
          rcases Ordering.then_eq_lt.mp less with first | ⟨same, later⟩
          · exact char_before (Std.LawfulLTCmp.eq_lt_iff_lt.mp first) (encode a) (encode b)
          · rw [Std.LawfulEqCmp.eq_of_compare same]
            exact List.append_left_lt (ih later)

theorem compare_eq_lt_iff {a b : Text} : compare a b = .lt ↔ encode a < encode b := by
  constructor
  · exact before_of_compare
  · intro less
    cases order : compare a b with
    | lt => rfl
    | eq =>
        rw [Std.LawfulEqCmp.eq_of_compare order] at less
        exact absurd less (List.lt_irrefl _)
    | gt =>
        have reversed := before_of_compare (Std.OrientedCmp.lt_of_gt order)
        exact absurd less (List.lt_asymm reversed)

end AssemblyVersions.Utf8
