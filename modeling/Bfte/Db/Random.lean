import Bfte.Lib.SortedTable

/-!
# A random entry of a table

The entry next to a pivot is taken, on one side of it or, if there is none, on the other.
A coin says which side comes first, and with it from which end that side is looked at: the
entry that is taken is next to the pivot only if the coin says so, and else it is the first
one or the last one of the table.
-/

namespace Bfte

variable {K V : Type} [LinearOrder K]

/-- `get_first_in_range`. -/
def getFirstInRange (tbl : SortedTable K V) (range : K → Bool) : Option (K × V) :=
  tbl.entries.find? fun e => range e.1

/-- `get_last_in_range`. -/
def getLastInRange (tbl : SortedTable K V) (range : K → Bool) : Option (K × V) :=
  (tbl.entries.filter fun e => range e.1).getLast?

/-- `get_random`. -/
def getRandom (tbl : SortedTable K V) (randomPivot : K) (coinFlip : Bool) :
    Option (K × V) :=
  let beforePivot := fun k => decide (k < randomPivot)
  let afterPivot := fun k => decide (randomPivot ≤ k)
  if coinFlip then
    (getFirstInRange tbl afterPivot).or (getLastInRange tbl beforePivot)
  else
    (getFirstInRange tbl beforePivot).or (getLastInRange tbl afterPivot)

theorem mem_of_getFirstInRange {tbl : SortedTable K V} {range : K → Bool} {e : K × V}
    (h : getFirstInRange tbl range = some e) : e ∈ tbl.entries :=
  List.mem_of_find?_eq_some h

theorem mem_of_getLastInRange {tbl : SortedTable K V} {range : K → Bool} {e : K × V}
    (h : getLastInRange tbl range = some e) : e ∈ tbl.entries :=
  (List.mem_filter.mp (List.mem_of_getLast? h)).1

/-- What is taken is in the table. -/
theorem get?_of_getRandom {tbl : SortedTable K V} {pivot : K} {coin : Bool} {e : K × V}
    (h : getRandom tbl pivot coin = some e) : tbl.get? e.1 = some e.2 := by
  rw [← SortedTable.mem_entries]
  unfold getRandom at h
  split at h
  · rcases Option.or_eq_some_iff.mp h with h | ⟨_, h⟩
    · exact mem_of_getFirstInRange h
    · exact mem_of_getLastInRange h
  · rcases Option.or_eq_some_iff.mp h with h | ⟨_, h⟩
    · exact mem_of_getFirstInRange h
    · exact mem_of_getLastInRange h

/-- An entry is taken if the pivot is its key and the coin says so. -/
theorem getRandom_self {tbl : SortedTable K V} {k : K} {v : V} (h : tbl.get? k = some v) :
    getRandom tbl k true = some (k, v) := by
  have hfirst : tbl.firstFrom k = some (k, v) :=
    SortedTable.firstFrom_eq_some.mpr ⟨h, le_refl k, fun _ _ _ hle => hle⟩
  show (tbl.firstFrom k).or _ = some (k, v)
  rw [hfirst]
  rfl

end Bfte
