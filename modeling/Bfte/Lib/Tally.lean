import Mathlib.Data.Finset.Card
import Mathlib.Data.List.Perm.Basic

/-!
# Standing votes

Each of a list of voters has at most one vote standing, and a choice counts the
voters that stand by it. Who the voters are changes, and so do their votes; what
that does to the counts is said here. Since nobody stands by two choices, the
counts of two choices share the voters between them.
-/

namespace Tally

variable {V C : Type} [DecidableEq C]

/-- The voters that stand by a choice. -/
def count (vote : V → Option C) (voters : List V) (c : C) : ℕ :=
  voters.countP fun v => decide (vote v = some c)

variable {vote vote' : V → Option C} {voters voters' : List V} {c c' : C}

theorem count_perm (h : voters.Perm voters') :
    count vote voters c = count vote voters' c := h.countP_eq _

theorem count_cons (v : V) : count vote (v :: voters) c =
    count vote voters c + if vote v = some c then 1 else 0 := by
  unfold count
  rw [List.countP_cons]
  simp only [decide_eq_true_eq]

/-- Whoever stands by the choice now did so before. -/
theorem count_le (h : ∀ v ∈ voters, vote' v = some c → vote v = some c) :
    count vote' voters c ≤ count vote voters c := by
  refine List.countP_mono_left fun v hv hvote => ?_
  exact decide_eq_true (h v hv (of_decide_eq_true hvote))

theorem count_filter_le (p : V → Bool) :
    count vote (voters.filter p) c ≤ count vote voters c :=
  (List.filter_sublist (p := p) (l := voters)).countP_le

theorem count_eq_zero (h : ∀ v ∈ voters, vote v ≠ some c) :
    count vote voters c = 0 :=
  List.countP_eq_zero.mpr fun v hv hvote => h v hv (of_decide_eq_true hvote)

theorem exists_vote (h : count vote voters c ≠ 0) :
    ∃ v ∈ voters, vote v = some c := by
  by_contra hnone
  push Not at hnone
  exact h (count_eq_zero hnone)

/-- If no voter is listed twice, the count is the size of a set of voters. -/
theorem count_eq_card [DecidableEq V] (h : voters.Nodup) :
    count vote voters c = (voters.toFinset.filter fun v => vote v = some c).card := by
  have hset : (voters.toFinset.filter fun v => vote v = some c) =
      (voters.filter fun v => decide (vote v = some c)).toFinset := by
    ext v
    simp
  rw [count, List.countP_eq_length_filter, hset,
    List.toFinset_card_of_nodup (h.filter _)]

/-- Two choices share the voters between them. -/
theorem count_add_count_le (hne : c ≠ c') :
    count vote voters c + count vote voters c' ≤ voters.length := by
  induction voters with
  | nil => exact Nat.le_refl 0
  | cons v voters ih =>
      rw [count_cons, count_cons, List.length_cons]
      by_cases hc : vote v = some c
      · have hc' : vote v ≠ some c' := fun h =>
          hne (Option.some.inj (hc.symm.trans h))
        rw [if_pos hc, if_neg hc']
        omega
      · rw [if_neg hc]
        split <;> omega

end Tally
