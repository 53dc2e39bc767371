import Mathlib.Data.List.Perm.Basic
import Mathlib.Data.List.Sort
import Mathlib.Order.Basic

/-!
# Vectors kept in order

A vector in ascending order is looked up by binary search, and after a change it is
sorted again. `binarySearch` is the loop of the standard library: it halves a window
and keeps the key inside it, if it is there at all. `swapRemove` puts the last item in
the place of the one that is removed, which breaks the order.

What is proved here is what these do to membership. In a vector without duplicates
that is all there is to know: sorted again, it is the only ascending list of its items.
-/

namespace SortedVec

variable {α : Type} [LinearOrder α]

/-! ## Binary search -/

/-- Halve the window until one item is left, and return where it is. -/
def searchLoop (xs : List α) (k : α) (size base : ℕ) : ℕ :=
  if 1 < size then
    let half := size / 2
    let mid := base + half
    searchLoop xs k (size - half)
      (if xs[mid]?.any fun x => decide (k < x) then base else mid)
  else base
termination_by size
decreasing_by omega

/-- `slice::binary_search`: where the key is, or else where it could be inserted. -/
def binarySearch (xs : List α) (k : α) : Except ℕ ℕ :=
  if xs.length = 0 then .error 0
  else
    let base := searchLoop xs k xs.length 0
    if xs[base]? = some k then .ok base
    else if xs[base]?.any fun x => decide (x < k) then .error (base + 1)
    else .error base

/-- What the loop keeps true of its window: nothing right of it can be the key, and it
starts at an item that is not past the key, unless it starts at the first. -/
structure Window (xs : List α) (k : α) (size base : ℕ) : Prop where
  pos : 0 < size
  le : base + size ≤ xs.length
  low : base = 0 ∨ ∃ x, xs[base]? = some x ∧ x ≤ k
  high : ∀ j x, base + size ≤ j → xs[j]? = some x → k < x

theorem getElem?_le {xs : List α} (hs : xs.Pairwise (· ≤ ·)) {i j : ℕ} {x y : α}
    (hij : i ≤ j) (hi : xs[i]? = some x) (hj : xs[j]? = some y) : x ≤ y := by
  obtain ⟨hilt, rfl⟩ := List.getElem?_eq_some_iff.mp hi
  obtain ⟨hjlt, rfl⟩ := List.getElem?_eq_some_iff.mp hj
  rcases Nat.eq_or_lt_of_le hij with rfl | hlt
  · exact le_rfl
  · exact List.pairwise_iff_getElem.mp hs i j hilt hjlt hlt

theorem Window.halve {xs : List α} {k : α} {size base : ℕ} (hs : xs.Pairwise (· ≤ ·))
    (h : Window xs k size base) (hlt : 1 < size) :
    Window xs k (size - size / 2)
      (if xs[base + size / 2]?.any fun x => decide (k < x) then base
        else base + size / 2) := by
  have hle := h.le
  have hmid : base + size / 2 < xs.length := by omega
  have hget : xs[base + size / 2]? = some xs[base + size / 2] :=
    List.getElem?_eq_getElem hmid
  rw [hget, Option.any_some]
  by_cases hk : k < xs[base + size / 2]
  · rw [if_pos (decide_eq_true hk)]
    refine ⟨by omega, by omega, h.low, fun j x hj hx => ?_⟩
    exact lt_of_lt_of_le hk (getElem?_le hs (by omega) hget hx)
  · rw [if_neg (by simpa using hk)]
    refine ⟨by omega, by omega, Or.inr ⟨_, hget, not_lt.mp hk⟩, fun j x hj hx => ?_⟩
    exact h.high j x (by omega) hx

theorem Window.searchLoop {xs : List α} {k : α} {size base : ℕ}
    (hs : xs.Pairwise (· ≤ ·)) (h : Window xs k size base) :
    Window xs k 1 (searchLoop xs k size base) := by
  induction size, base using searchLoop.induct xs k with
  | case1 size base hlt half mid ih =>
      rw [SortedVec.searchLoop, if_pos hlt]
      exact ih (h.halve hs hlt)
  | case2 size base hlt =>
      rw [SortedVec.searchLoop, if_neg hlt]
      have hpos := h.pos
      obtain rfl : size = 1 := by omega
      exact h

/-- What is found is there, whatever the order. -/
theorem getElem?_of_binarySearch {xs : List α} {k : α} {i : ℕ}
    (h : binarySearch xs k = .ok i) : xs[i]? = some k := by
  unfold binarySearch at h
  split at h
  · cases h
  · dsimp only at h
    split at h
    · next hget =>
        cases h
        exact hget
    · split at h <;> cases h

/-- In an ascending vector what is not found is not there. -/
theorem not_mem_of_binarySearch {xs : List α} {k : α} {i : ℕ}
    (hs : xs.Pairwise (· ≤ ·)) (h : binarySearch xs k = .error i) : k ∉ xs := by
  unfold binarySearch at h
  split at h
  · next hnil =>
      rw [List.length_eq_zero_iff.mp hnil]
      exact List.not_mem_nil
  · next hne =>
      have hstart : Window xs k xs.length 0 :=
        ⟨Nat.pos_of_ne_zero hne, by omega, Or.inl rfl, fun j x hj hx => by
          rw [List.getElem?_eq_none (by omega)] at hx
          cases hx⟩
      have hend := hstart.searchLoop hs
      generalize searchLoop xs k xs.length 0 = base at h hend
      have hmiss : xs[base]? ≠ some k := by
        intro hget
        dsimp only at h
        rw [if_pos hget] at h
        cases h
      intro hk
      obtain ⟨j, hj⟩ := List.mem_iff_getElem?.mp hk
      rcases Nat.lt_trichotomy j base with hlt | rfl | hgt
      · rcases hend.low with rfl | ⟨x, hx, hle⟩
        · exact absurd hlt (Nat.not_lt_zero j)
        · have hxk : x = k := le_antisymm hle (getElem?_le hs hlt.le hj hx)
          rw [hxk] at hx
          exact hmiss hx
      · exact hmiss hj
      · exact lt_irrefl k (hend.high j k hgt hj)

/-- Binary search finds what is there. -/
theorem binarySearch_eq_ok_iff {xs : List α} {k : α} (hs : xs.Pairwise (· ≤ ·)) :
    (∃ i, binarySearch xs k = .ok i) ↔ k ∈ xs := by
  constructor
  · rintro ⟨i, h⟩
    exact List.mem_iff_getElem?.mpr ⟨i, getElem?_of_binarySearch h⟩
  · intro hk
    cases h : binarySearch xs k with
    | ok i => exact ⟨i, rfl⟩
    | error i => exact absurd hk (not_mem_of_binarySearch hs h)

/-! ## Changing a vector and sorting it again -/

/-- `Vec::swap_remove`, without what it returns. -/
def swapRemove {α : Type} (xs : List α) (i : ℕ) : List α :=
  match xs.getLast? with
  | none => xs
  | some last => (xs.set i last).dropLast

/-- `slice::sort_unstable`. -/
def sortUnstable (xs : List α) : List α := xs.insertionSort (· ≤ ·)

theorem sortedLE_sortUnstable (xs : List α) : (sortUnstable xs).SortedLE :=
  List.sortedLE_insertionSort

theorem sortUnstable_perm (xs : List α) : (sortUnstable xs).Perm xs :=
  List.perm_insertionSort _ xs

@[simp] theorem mem_sortUnstable {xs : List α} {k : α} : k ∈ sortUnstable xs ↔ k ∈ xs :=
  (sortUnstable_perm xs).mem_iff

/-- Sorting brings a list in strictly ascending order just when it has nothing twice. -/
theorem sortedLT_sortUnstable {xs : List α} :
    (sortUnstable xs).SortedLT ↔ xs.Nodup := by
  rw [List.sortedLT_iff_nodup_and_sortedLE, (sortUnstable_perm xs).nodup_iff]
  exact ⟨fun h => h.1, fun h => ⟨h, sortedLE_sortUnstable xs⟩⟩

/-- What is removed and what is left are what there was. -/
theorem swapRemove_perm {α : Type} {xs : List α} {i : ℕ} {k : α} (h : xs[i]? = some k) :
    (k :: swapRemove xs i).Perm xs := by
  obtain ⟨hlt, rfl⟩ := List.getElem?_eq_some_iff.mp h
  rcases List.eq_nil_or_concat' xs with rfl | ⟨ys, last, rfl⟩
  · exact absurd hlt (Nat.not_lt_zero i)
  · rw [swapRemove, List.getLast?_concat]
    dsimp only
    rw [List.length_append, List.length_singleton] at hlt
    rcases Nat.eq_or_lt_of_le (Nat.le_of_lt_succ hlt) with rfl | hi
    · -- the last item itself: nothing takes its place
      rw [List.set_append_right _ _ le_rfl, Nat.sub_self, List.set_cons_zero,
        List.dropLast_concat, List.getElem_concat_length rfl]
      exact (List.perm_append_singleton last ys).symm
    · rw [List.set_append_left _ _ hi, List.dropLast_concat, List.getElem_append_left hi]
      have hset : (ys[i] :: ys.set i last).Perm (ys[i] :: last :: ys.eraseIdx i) :=
        (List.set_perm_cons_eraseIdx hi last).cons _
      have hback : (last :: ys[i] :: ys.eraseIdx i).Perm (last :: ys) :=
        (List.getElem_cons_eraseIdx_perm hi).cons _
      exact ((hset.trans (List.Perm.swap _ _ _)).trans hback).trans
        (List.perm_append_singleton last ys).symm

end SortedVec
