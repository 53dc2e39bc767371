import Mathlib.Data.Finset.Basic
import Mathlib.Data.Finset.Dedup
import Bfte.Core.PeerSet

/-!
# A peer set is a set, if it starts as one

`Represents` says that the vector holds the keys of a finite set, in strictly ascending
order. Every change keeps it, and answers what the same change answers on the set.

No way to build a peer set removes a key that is given twice, though `insert` takes care
never to add one. From such a list the vector is sorted but not a set: the key counts
twice in the number of peers, and it is still there after it was removed.
-/

namespace Bfte

namespace PeerSet

/-! ## Changes on a set -/

/-- What a change does to a set, and what it answers. -/
def Op.onSet (s : Finset PeerPubkey) : Op → Finset PeerPubkey × Bool
  | .insert k => (Insert.insert k s, decide (k ∉ s))
  | .remove k => (s.erase k, decide (k ∈ s))

/-- The vector is the set, in strictly ascending order. -/
structure Represents (p : PeerSet) (s : Finset PeerPubkey) : Prop where
  ascending : p.asSlice.SortedLT
  mem : ∀ k, k ∈ p.asSlice ↔ k ∈ s

section

variable {p : PeerSet} {s : Finset PeerPubkey}

theorem represents_toFinset (h : p.asSlice.SortedLT) :
    p.Represents p.asSlice.toFinset :=
  ⟨h, fun _ => List.mem_toFinset.symm⟩

/-- The lookup tells whether the key is in the set. -/
theorem Represents.binarySearch (h : p.Represents s) {k : PeerPubkey} :
    (∃ i, SortedVec.binarySearch p.items k = .ok i) ↔ k ∈ s :=
  (SortedVec.binarySearch_eq_ok_iff h.ascending.sortedLE.pairwise).trans (h.mem k)

theorem Represents.insert (h : p.Represents s) (k : PeerPubkey) :
    (p.insert k).1.Represents (Insert.insert k s) ∧ (p.insert k).2 = decide (k ∉ s) := by
  have hfind := h.binarySearch (k := k)
  unfold PeerSet.insert
  cases hs : SortedVec.binarySearch p.items k with
  | ok i =>
      have hk : k ∈ s := hfind.mp ⟨i, hs⟩
      rw [Finset.insert_eq_of_mem hk]
      exact ⟨h, by simp [hk]⟩
  | error i =>
      have hk : k ∉ s := fun hk => by
        obtain ⟨j, hj⟩ := hfind.mpr hk
        rw [hs] at hj
        cases hj
      have hnew : k ∉ p.items := fun hmem => hk ((h.mem k).mp hmem)
      refine ⟨⟨SortedVec.sortedLT_sortUnstable.mpr ?_, fun j => ?_⟩, by simp [hk]⟩
      · exact List.nodup_append.mpr
          ⟨h.ascending.nodup, List.nodup_singleton k, fun x hx y hy hxy => by
            rw [List.mem_singleton.mp hy] at hxy
            exact hnew (hxy ▸ hx)⟩
      · show j ∈ SortedVec.sortUnstable (p.items ++ [k]) ↔ j ∈ Insert.insert k s
        rw [SortedVec.mem_sortUnstable, List.mem_append, List.mem_singleton,
          Finset.mem_insert, or_comm]
        exact or_congr Iff.rfl (h.mem j)

theorem Represents.remove (h : p.Represents s) (k : PeerPubkey) :
    (p.remove k).1.Represents (s.erase k) ∧ (p.remove k).2 = decide (k ∈ s) := by
  have hfind := h.binarySearch (k := k)
  unfold PeerSet.remove
  cases hs : SortedVec.binarySearch p.items k with
  | error i =>
      have hk : k ∉ s := fun hk => by
        obtain ⟨j, hj⟩ := hfind.mpr hk
        rw [hs] at hj
        cases hj
      rw [Finset.erase_eq_of_notMem hk]
      exact ⟨h, by simp [hk]⟩
  | ok i =>
      have hk : k ∈ s := hfind.mp ⟨i, hs⟩
      have hperm := SortedVec.swapRemove_perm (SortedVec.getElem?_of_binarySearch hs)
      -- one copy of the key leaves, and there was only one
      have hnodup := List.nodup_cons.mp (hperm.nodup_iff.mpr h.ascending.nodup)
      refine ⟨⟨SortedVec.sortedLT_sortUnstable.mpr hnodup.2, fun j => ?_⟩, by simp [hk]⟩
      show j ∈ SortedVec.sortUnstable (SortedVec.swapRemove p.items i) ↔ j ∈ s.erase k
      rw [SortedVec.mem_sortUnstable, Finset.mem_erase, ← h.mem j, asSlice,
        ← hperm.mem_iff, List.mem_cons]
      constructor
      · intro hj
        exact ⟨fun hjk => hnodup.1 (hjk ▸ hj), Or.inr hj⟩
      · rintro ⟨hne, hj⟩
        exact hj.resolve_left hne

/-- Each change does to the vector what it does to the set. -/
theorem Represents.apply (h : p.Represents s) (op : Op) :
    (p.apply op).1.Represents (op.onSet s).1 ∧ (p.apply op).2 = (op.onSet s).2 := by
  cases op with
  | insert k => exact h.insert k
  | remove k => exact h.remove k

/-- The set that is left after some changes. -/
theorem Represents.run (h : p.Represents s) (ops : List Op) :
    (p.run ops).Represents (ops.foldl (fun s op => (op.onSet s).1) s) := by
  induction ops generalizing p s with
  | nil => exact h
  | cons op ops ih => exact ih (h.apply op).1

end

/-! ## Seen from outside -/

/-- The answer says whether there was something to do, the key is in or out, and no
other key has moved. -/
def Op.Done (p : PeerSet) (op : Op) : Prop :=
  match op with
  | .insert k =>
      ((p.insert k).2 = true ↔ k ∉ p.asSlice) ∧ k ∈ (p.insert k).1.asSlice ∧
        ∀ j, j ≠ k → (j ∈ (p.insert k).1.asSlice ↔ j ∈ p.asSlice)
  | .remove k =>
      ((p.remove k).2 = true ↔ k ∈ p.asSlice) ∧ k ∉ (p.remove k).1.asSlice ∧
        ∀ j, j ≠ k → (j ∈ (p.remove k).1.asSlice ↔ j ∈ p.asSlice)

theorem Represents.done {p : PeerSet} {s : Finset PeerPubkey} (h : p.Represents s)
    (op : Op) : op.Done p := by
  cases op with
  | insert k =>
      obtain ⟨hrep, hans⟩ := h.insert k
      refine ⟨?_, (hrep.mem k).mpr (Finset.mem_insert_self k s), fun j hj => ?_⟩
      · rw [hans, decide_eq_true_iff, h.mem k]
      · rw [hrep.mem j, h.mem j, Finset.mem_insert]
        exact or_iff_right hj
  | remove k =>
      obtain ⟨hrep, hans⟩ := h.remove k
      refine ⟨?_, fun hk => Finset.notMem_erase k s ((hrep.mem k).mp hk), fun j hj => ?_⟩
      · rw [hans, decide_eq_true_iff, h.mem k]
      · rw [hrep.mem j, h.mem j, Finset.mem_erase]
        exact and_iff_right hj

/-- Sorting what is given makes a set of it just when nothing is given twice. -/
theorem ascending_build {src : Source} : src.build.asSlice.SortedLT ↔ src.keys.Nodup := by
  cases src with
  | new => exact iff_of_true List.Pairwise.nil.sortedLT List.nodup_nil
  | iter l => exact SortedVec.sortedLT_sortUnstable
  | array v => exact SortedVec.sortedLT_sortUnstable
  | vec l => exact SortedVec.sortedLT_sortUnstable

/-- All through the changes, the peer set is in strictly ascending order and does what a
set does, just when the list it was built from names no key twice. -/
theorem isSet_iff_nodup (src : Source) (ops : List Op) :
    (∀ before, before <+: ops →
      (src.build.run before).asSlice.SortedLT ∧ ∀ op : Op, op.Done (src.build.run before)) ↔
    src.keys.Nodup := by
  constructor
  · intro h
    exact ascending_build.mp (h [] (List.nil_prefix)).1
  · intro hnodup before _
    have hrep := (represents_toFinset (ascending_build.mpr hnodup)).run before
    exact ⟨hrep.ascending, hrep.done⟩

/-- Given twice, a key is there twice, and one of the two stays when it is removed. -/
theorem vec_twice :
    (Source.vec [7, 7]).build.asSlice = [7, 7] ∧
    ¬ (Source.vec [7, 7]).build.asSlice.SortedLT ∧
    ¬ (Op.remove 7).Done (Source.vec [7, 7]).build := by
  have hvec : (Source.vec [7, 7]).build = ⟨[7, 7]⟩ := by decide
  have hfind : SortedVec.binarySearch [7, 7] 7 = .ok 1 := by
    simp [SortedVec.binarySearch, SortedVec.searchLoop]
  rw [hvec]
  refine ⟨rfl, by decide, fun h => h.2.1 ?_⟩
  show 7 ∈ (PeerSet.remove ⟨[7, 7]⟩ 7).1.asSlice
  rw [PeerSet.remove, hfind]
  decide

/-- The peers the consensus is started with are a set just when the peers it is given
are one and the node itself is not among them. -/
theorem ascending_ofInitStatic {pubkey : PeerPubkey} {extraPeers : List PeerPubkey} :
    (ofInitStatic pubkey extraPeers).asSlice.SortedLT ↔
      pubkey ∉ extraPeers ∧ extraPeers.Nodup := by
  refine SortedVec.sortedLT_sortUnstable.trans ?_
  rw [List.flatten_cons, List.flatten_cons, List.flatten_nil, List.append_nil,
    List.singleton_append, List.nodup_cons]

end PeerSet

end Bfte
