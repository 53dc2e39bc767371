import Mathlib.Data.List.Sort
import Mathlib.Order.Bounds.Basic

/-!
# The k-th smallest item, by counting

`kth l k` is the item at position `k` once `l` is sorted. Where it stands is a
matter of counting: it is at least `p` exactly when all but `k` of the items
are. That is the form in which a quorum of votes speaks about the value a
threshold picks out of them.
-/

namespace OrderStat

variable {α : Type} [LinearOrder α]

/-- The item at position `k` of the sorted list. -/
def kth (l : List α) (k : ℕ) : Option α := (l.insertionSort (· ≤ ·))[k]?

/-- In a sorted list, everything from position `k` on is at least the item
there, and everything up to it at most that. -/
theorem sorted_split {l : List α} (hl : l.Pairwise (· ≤ ·)) {k : ℕ} {v : α}
    (hv : l[k]? = some v) :
    (∀ x ∈ l.drop k, v ≤ x) ∧ ∀ x ∈ l.take (k + 1), x ≤ v := by
  obtain ⟨hk, rfl⟩ := List.getElem?_eq_some_iff.mp hv
  rw [← List.take_append_drop k l] at hl
  obtain ⟨_, hdrop, hacross⟩ := List.pairwise_append.mp hl
  rw [List.drop_eq_getElem_cons hk] at hdrop hacross ⊢
  constructor
  · intro x hx
    rcases List.mem_cons.mp hx with rfl | hx
    · exact le_refl _
    · exact (List.pairwise_cons.mp hdrop).1 x hx
  · intro x hx
    rw [List.take_succ_eq_append_getElem hk] at hx
    rcases List.mem_append.mp hx with hx | hx
    · exact hacross x hx _ List.mem_cons_self
    · exact le_of_eq (List.mem_singleton.mp hx)

theorem le_getElem_iff {l : List α} (hl : l.Pairwise (· ≤ ·)) {k : ℕ} {v : α}
    (hv : l[k]? = some v) (p : α) :
    p ≤ v ↔ l.length - k ≤ l.countP (fun x => decide (p ≤ x)) := by
  obtain ⟨hdrop, htake⟩ := sorted_split hl hv
  have hk : k < l.length := (List.getElem?_eq_some_iff.mp hv).1
  constructor
  · intro hpv
    have hall : (l.drop k).countP (fun x => decide (p ≤ x)) =
        (l.drop k).length :=
      List.countP_eq_length.mpr fun x hx =>
        decide_eq_true (hpv.trans (hdrop x hx))
    have hle : (l.drop k).countP (fun x => decide (p ≤ x)) ≤
        l.countP (fun x => decide (p ≤ x)) :=
      (List.drop_sublist k l).countP_le
    rw [hall, List.length_drop] at hle
    exact hle
  · intro hcount
    by_contra hlt
    have hnone : (l.take (k + 1)).countP (fun x => decide (p ≤ x)) = 0 := by
      refine List.countP_eq_zero.mpr fun x hx => ?_
      have := htake x hx
      simp only [decide_eq_true_eq, not_le]
      exact lt_of_le_of_lt this (not_le.mp hlt)
    have hsplit : l.countP (fun x => decide (p ≤ x)) =
        (l.take (k + 1)).countP (fun x => decide (p ≤ x)) +
          (l.drop (k + 1)).countP (fun x => decide (p ≤ x)) := by
      rw [← List.countP_append, List.take_append_drop]
    have hrest : (l.drop (k + 1)).countP (fun x => decide (p ≤ x)) ≤
        l.length - (k + 1) := by
      rw [← List.length_drop]
      exact List.countP_le_length
    omega

/-- The k-th smallest item is at least `p` exactly when all but `k` items are. -/
theorem le_kth_iff {l : List α} {k : ℕ} {v : α} (hv : kth l k = some v) (p : α) :
    p ≤ v ↔ l.length - k ≤ l.countP (fun x => decide (p ≤ x)) := by
  have hperm := List.perm_insertionSort (· ≤ ·) l
  rw [le_getElem_iff (List.pairwise_insertionSort (· ≤ ·) l) hv p,
    hperm.length_eq, hperm.countP_eq]

theorem exists_kth {l : List α} {k : ℕ} (h : k < l.length) :
    ∃ v, kth l k = some v := by
  have hk : k < (l.insertionSort (· ≤ ·)).length := by
    rwa [(List.perm_insertionSort (· ≤ ·) l).length_eq]
  exact ⟨_, List.getElem?_eq_getElem hk⟩

/-- The k-th smallest item is the greatest value that all but `k` items reach. -/
theorem isGreatest_kth {l : List α} {k : ℕ} {v : α} (hv : kth l k = some v) :
    IsGreatest {p | l.length - k ≤ l.countP (fun x => decide (p ≤ x))} v :=
  ⟨(le_kth_iff hv v).mp le_rfl, fun p hp => (le_kth_iff hv p).mpr hp⟩

end OrderStat
