import Mathlib.Data.List.MinMax
import Bfte.Lib.SortedTable

/-!
# Tables that keep the latest

Each value names its key and has a rank. A value replaces what is stored under its key
if its rank is strictly greater, so what is stored in the end is the first of the values
with the greatest rank.

That makes the table a function of which values there were, and not of their order, just
as long as there is only one value with the greatest rank of each key.
-/

namespace Latest

variable {K V β : Type} [LinearOrder K] [LinearOrder β] {key : V → K} {rank : V → β}

/-- Store a value, unless what is there is as high. -/
def put (key : V → K) (rank : V → β) (t : SortedTable K V) (v : V) : SortedTable K V :=
  match t.get? (key v) with
  | some existing => if rank v ≤ rank existing then t else t.insert (key v) v
  | none => t.insert (key v) v

/-- Store one after the other. -/
def putAll (key : V → K) (rank : V → β) (l : List V) : SortedTable K V :=
  l.foldl (put key rank) .empty

theorem putAll_concat (l : List V) (v : V) :
    putAll key rank (l ++ [v]) = put key rank (putAll key rank l) v := by
  rw [putAll, List.foldl_concat]
  rfl

/-- What is stored under a key is the first value with the greatest rank. -/
theorem get?_putAll (l : List V) (k : K) :
    (putAll key rank l).get? k = (l.filter fun v => decide (key v = k)).argmax rank := by
  induction l using List.reverseRecOn with
  | nil => rfl
  | append_singleton l v ih =>
      rw [putAll_concat, List.filter_append, put]
      by_cases hk : key v = k
      · subst hk
        rw [List.filter_singleton, decide_eq_true rfl, cond_true, List.argmax_concat, ← ih]
        cases h : (putAll key rank l).get? (key v) with
        | none => exact SortedTable.get?_insert_self _ _ _
        | some existing =>
            dsimp only
            by_cases hle : rank v ≤ rank existing
            · rw [if_pos hle, if_neg (not_lt.mpr hle)]
              exact h
            · rw [if_neg hle, if_pos (not_le.mp hle)]
              exact SortedTable.get?_insert_self _ _ _
      · rw [List.filter_singleton, decide_eq_false hk, cond_false, List.append_nil, ← ih]
        have hother : ((putAll key rank l).insert (key v) v).get? k =
            (putAll key rank l).get? k := SortedTable.get?_insert_of_ne fun h => hk h.symm
        cases h : (putAll key rank l).get? (key v) with
        | none => exact hother
        | some existing =>
            dsimp only
            by_cases hle : rank v ≤ rank existing
            · rw [if_pos hle]
            · rw [if_neg hle]
              exact hother

/-- A value with the greatest rank of its key. -/
def IsLatest (key : V → K) (rank : V → β) (l : List V) (v : V) : Prop :=
  v ∈ l ∧ ∀ w ∈ l, key w = key v → rank w ≤ rank v

/-- What is stored is a latest value, and it is stored under its own key. -/
theorem isLatest_of_get? {l : List V} {k : K} {v : V}
    (h : (putAll key rank l).get? k = some v) : key v = k ∧ IsLatest key rank l v := by
  rw [get?_putAll] at h
  have hmem := List.mem_filter.mp (List.argmax_mem h)
  have hkey : key v = k := of_decide_eq_true hmem.2
  refine ⟨hkey, hmem.1, fun w hw hwk => ?_⟩
  have hwmem : w ∈ l.filter fun v => decide (key v = k) :=
    List.mem_filter.mpr ⟨hw, decide_eq_true (hwk.trans hkey)⟩
  exact List.le_of_mem_argmax hwmem h

theorem exists_get? (key : V → K) (rank : V → β) {l : List V} {v : V} (hv : v ∈ l) :
    ∃ w, (putAll key rank l).get? (key v) = some w := by
  refine Option.ne_none_iff_exists'.mp fun hnone => ?_
  rw [get?_putAll, List.argmax_eq_none] at hnone
  exact List.ne_nil_of_mem (List.mem_filter.mpr ⟨hv, decide_eq_true rfl⟩) hnone

/-- Nothing that comes later moves a latest value that comes first. -/
theorem get?_putAll_cons {l : List V} {v : V} (hv : IsLatest key rank l v) :
    (putAll key rank (v :: l)).get? (key v) = some v := by
  have hkey : decide (key v = key v) = true := decide_eq_true rfl
  rw [get?_putAll, List.filter_cons, if_pos hkey, List.argmax_cons]
  cases h : (l.filter fun w => decide (key w = key v)).argmax rank with
  | none => rfl
  | some w =>
      have hmem := List.mem_filter.mp (List.argmax_mem h)
      have hle := hv.2 w hmem.1 (of_decide_eq_true hmem.2)
      exact if_neg (not_lt.mpr hle)

/-- No key has two latest values. -/
def NoTie (key : V → K) (rank : V → β) (l : List V) : Prop :=
  ∀ v w, IsLatest key rank l v → IsLatest key rank l w → key v = key w → v = w

/-- Without ties it does not matter which of the latest values came first. -/
theorem NoTie.get?_putAll {l : List V} (h : NoTie key rank l) {k : K} {v : V} :
    (putAll key rank l).get? k = some v ↔ key v = k ∧ IsLatest key rank l v := by
  constructor
  · exact isLatest_of_get?
  · rintro ⟨rfl, hv⟩
    obtain ⟨w, hw⟩ := exists_get? key rank hv.1
    obtain ⟨hkey, hw'⟩ := isLatest_of_get? hw
    rw [hw, h v w hv hw' hkey.symm]

omit [LinearOrder K] in
theorem isLatest_congr {l l' : List V} (h : ∀ v, v ∈ l' ↔ v ∈ l) {v : V} :
    IsLatest key rank l' v ↔ IsLatest key rank l v :=
  and_congr (h v) (forall_congr' fun w => imp_congr (h w) Iff.rfl)

omit [LinearOrder K] in
theorem NoTie.of_mem_iff {l l' : List V} (hties : NoTie key rank l)
    (h : ∀ v, v ∈ l' ↔ v ∈ l) : NoTie key rank l' := fun v w hv hw =>
  hties v w ((isLatest_congr h).mp hv) ((isLatest_congr h).mp hw)

/-- The same values in any order, and any number of times, give the same table, just when
there are no ties. -/
theorem putAll_eq_iff_noTie (l : List V) :
    (∀ l', (∀ v, v ∈ l' ↔ v ∈ l) → putAll key rank l' = putAll key rank l) ↔
      NoTie key rank l := by
  constructor
  · intro h v w hv hw hkey
    have hfirst : ∀ u, IsLatest key rank l u →
        (putAll key rank l).get? (key u) = some u := fun u hu => by
      rw [← h (u :: l) fun x => by
        rw [List.mem_cons]
        exact or_iff_right_of_imp fun hx => hx ▸ hu.1]
      exact get?_putAll_cons hu
    have hw' := hfirst w hw
    rw [← hkey, hfirst v hv] at hw'
    exact Option.some.inj hw'
  · intro hties l' hmem
    refine SortedTable.ext_get? fun k => Option.ext fun v => ?_
    rw [(hties.of_mem_iff hmem).get?_putAll, hties.get?_putAll, isLatest_congr hmem]

end Latest
