import Mathlib.Data.Finset.Card
import Mathlib.Data.Finset.Range
import Mathlib.Data.List.Induction

/-!
# Quorums that meet in a correct member

The counting behind every Byzantine quorum argument, for a finite set of
members of which some are faulty. Two quorums large enough that their sizes
add up to more than the membership and the faulty together share a member
that is not faulty; one quorum larger than the faulty has such a member.
-/

namespace Quorum

variable {ι : Type} [DecidableEq ι] {members : Finset ι} {faulty : ι → Prop}
  [DecidablePred faulty]

omit [DecidableEq ι] in
theorem card_filter_faulty_le {A : Finset ι} (hA : A ⊆ members) :
    (A.filter faulty).card ≤ (members.filter faulty).card :=
  Finset.card_le_card (Finset.filter_subset_filter _ hA)

omit [DecidableEq ι] in
/-- A set of members that outnumbers the faulty has a correct member. -/
theorem exists_correct {A : Finset ι} (hA : A ⊆ members)
    (h : (members.filter faulty).card < A.card) : ∃ i ∈ A, ¬ faulty i := by
  by_contra hall
  push Not at hall
  have hfilter : A.filter faulty = A := Finset.filter_true_of_mem hall
  have hle : (A.filter faulty).card ≤ (members.filter faulty).card :=
    card_filter_faulty_le hA
  rw [hfilter] at hle
  omega

/-- Two quorums share a correct member. -/
theorem exists_common_correct {A B : Finset ι} {q : ℕ} (hA : A ⊆ members)
    (hB : B ⊆ members) (hqA : q ≤ A.card) (hqB : q ≤ B.card)
    (h : members.card + (members.filter faulty).card < 2 * q) :
    ∃ i ∈ A, i ∈ B ∧ ¬ faulty i := by
  have hunion : (A ∪ B).card ≤ members.card :=
    Finset.card_le_card (Finset.union_subset hA hB)
  have hsum := Finset.card_union_add_card_inter A B
  have hinter : (members.filter faulty).card < (A ∩ B).card := by omega
  obtain ⟨i, hi, hcorrect⟩ :=
    exists_correct (Finset.inter_subset_left.trans hA) hinter
  obtain ⟨hiA, hiB⟩ := Finset.mem_inter.mp hi
  exact ⟨i, hiA, hiB, hcorrect⟩

/-- The positions of a list at which `p` holds are as many as the items with
`p`. -/
theorem card_positions {α : Type} (p : α → Bool) (l : List α) :
    ((Finset.range l.length).filter fun i => l[i]?.any p = true).card =
      l.countP p := by
  induction l using List.reverseRecOn with
  | nil => rfl
  | append_singleton l a ih =>
      have hold : ((Finset.range l.length).filter fun i =>
            (l ++ [a])[i]?.any p = true) =
          (Finset.range l.length).filter fun i => l[i]?.any p = true := by
        refine Finset.filter_congr fun i hi => ?_
        rw [List.getElem?_append_left (Finset.mem_range.mp hi)]
      rw [List.length_append, List.length_singleton, Finset.range_add_one,
        Finset.filter_insert, hold, List.countP_append, List.countP_singleton,
        ← ih]
      have hlast : (l ++ [a])[l.length]?.any p = p a := by simp
      rw [hlast]
      split
      · exact Finset.card_insert_of_notMem (by simp)
      · rfl

/-- More positions of a list than it has faulty items include one that is not
faulty. -/
theorem exists_correct_position {α : Type} {byz : α → Bool} {l : List α}
    {A : Finset ℕ} (hA : ∀ i ∈ A, i < l.length) (h : l.countP byz < A.card) :
    ∃ i ∈ A, ∃ a, l[i]? = some a ∧ byz a = false := by
  have hsub : A ⊆ Finset.range l.length := fun i hi =>
    Finset.mem_range.mpr (hA i hi)
  have hfew : ((Finset.range l.length).filter
      fun i => l[i]?.any byz = true).card < A.card := by
    rwa [card_positions]
  obtain ⟨i, hi, hcorrect⟩ := exists_correct hsub hfew
  refine ⟨i, hi, l.get ⟨i, hA i hi⟩, List.getElem?_eq_getElem (hA i hi), ?_⟩
  rw [List.getElem?_eq_getElem (hA i hi)] at hcorrect
  simpa using hcorrect

end Quorum
