import Mathlib.Data.Prod.Lex
import Mathlib.Data.List.Sort

/-!
# Tables kept in key order

An embedded store hands out tables whose range scans run in key order: the
entry just below a key, the first entry from a key on, everything inside a
range. `SortedTable` is that table as a list of bindings whose keys strictly
increase. The order is a field, so no operation has a precondition and two
tables with the same bindings are the same table.

Everything past this file reasons through `get?`. The list is mentioned once
per operation, in the lemma that says what the operation does to `get?`, and
the two scans `lastBelow` and `firstFrom` are characterised by the bindings
they may and may not skip.
-/

namespace SortedTable

/-- Bindings in strictly increasing key order. -/
def Sorted {K V : Type} [LinearOrder K] (l : List (K × V)) : Prop :=
  l.Pairwise fun a b => a.1 < b.1

end SortedTable

/-- A finite map whose bindings are listed in key order. -/
structure SortedTable (K V : Type) [LinearOrder K] where
  entries : List (K × V)
  sorted : SortedTable.Sorted entries
  deriving DecidableEq

namespace SortedTable

variable {K V : Type} [LinearOrder K]

/-! ## The bindings of a sorted list -/

theorem Sorted.eq_of_mem {l : List (K × V)} (hl : Sorted l) {a b : K × V}
    (ha : a ∈ l) (hb : b ∈ l) (h : a.1 = b.1) : a = b := by
  induction l with
  | nil => cases ha
  | cons x xs ih =>
      obtain ⟨hx, hxs⟩ := List.pairwise_cons.mp hl
      rcases List.mem_cons.mp ha with rfl | ha' <;>
        rcases List.mem_cons.mp hb with rfl | hb'
      · rfl
      · exact absurd h (ne_of_lt (hx _ hb'))
      · exact absurd h.symm (ne_of_lt (hx _ ha'))
      · exact ih hxs ha' hb'

theorem Sorted.filter {l : List (K × V)} (hl : Sorted l) (p : K × V → Bool) :
    Sorted (l.filter p) := List.Pairwise.filter p hl

theorem Sorted.getLast?_eq_some {l : List (K × V)} (hl : Sorted l) {e : K × V} :
    l.getLast? = some e ↔ e ∈ l ∧ ∀ e' ∈ l, e'.1 ≤ e.1 := by
  constructor
  · intro h
    obtain ⟨ys, rfl⟩ := List.getLast?_eq_some_iff.mp h
    refine ⟨by simp, fun e' he' => ?_⟩
    rcases List.mem_append.mp he' with he' | he'
    · exact le_of_lt ((List.pairwise_append.mp hl).2.2 _ he' _ (by simp))
    · rw [List.mem_singleton.mp he']
  · rintro ⟨hmem, hmax⟩
    cases hlast : l.getLast? with
    | none => rw [List.getLast?_eq_none_iff.mp hlast] at hmem; cases hmem
    | some e₀ =>
        obtain ⟨ys, rfl⟩ := List.getLast?_eq_some_iff.mp hlast
        rcases List.mem_append.mp hmem with he | he
        · have hlt := (List.pairwise_append.mp hl).2.2 _ he e₀ (by simp)
          exact absurd (hmax e₀ (by simp)) (not_le_of_gt hlt)
        · rw [List.mem_singleton.mp he]

theorem Sorted.find?_eq_some {l : List (K × V)} (hl : Sorted l) {k : K}
    {e : K × V} :
    l.find? (fun x => decide (k ≤ x.1)) = some e ↔
      e ∈ l ∧ k ≤ e.1 ∧ ∀ e' ∈ l, k ≤ e'.1 → e.1 ≤ e'.1 := by
  induction l with
  | nil => simp
  | cons x xs ih =>
      obtain ⟨hx, hxs⟩ := List.pairwise_cons.mp hl
      rw [List.find?_cons]
      by_cases hk : k ≤ x.1
      · simp only [hk, decide_true, Option.some.injEq, List.mem_cons]
        constructor
        · rintro rfl
          refine ⟨Or.inl rfl, hk, fun e' he' _ => ?_⟩
          rcases he' with rfl | he'
          · exact le_refl _
          · exact le_of_lt (hx _ he')
        · rintro ⟨rfl | he, _, hmin⟩
          · rfl
          · exact absurd (hmin x (Or.inl rfl) hk) (not_le_of_gt (hx _ he))
      · simp only [hk, decide_false, ih hxs, List.mem_cons]
        constructor
        · rintro ⟨he, hke, hmin⟩
          refine ⟨Or.inr he, hke, fun e' he' hke' => ?_⟩
          rcases he' with rfl | he'
          · exact absurd hke' hk
          · exact hmin e' he' hke'
        · rintro ⟨he, hke, hmin⟩
          rcases he with rfl | he
          · exact absurd hke hk
          · exact ⟨he, hke, fun e' he' => hmin e' (Or.inr he')⟩

/-- Insertion in key order, replacing the binding of an equal key. -/
def insertEntry (k : K) (v : V) : List (K × V) → List (K × V)
  | [] => [(k, v)]
  | e :: es =>
      if e.1 < k then e :: insertEntry k v es
      else if k < e.1 then (k, v) :: e :: es
      else (k, v) :: es

theorem mem_insertEntry {k : K} {v : V} {l : List (K × V)} (hl : Sorted l)
    {e : K × V} :
    e ∈ insertEntry k v l ↔ e = (k, v) ∨ (e ∈ l ∧ e.1 ≠ k) := by
  induction l with
  | nil => simp [insertEntry]
  | cons x xs ih =>
      obtain ⟨hx, hxs⟩ := List.pairwise_cons.mp hl
      rw [insertEntry]
      split_ifs with h1 h2
      · rw [List.mem_cons, ih hxs, List.mem_cons]
        constructor
        · rintro (rfl | rfl | ⟨he, hne⟩)
          · exact Or.inr ⟨Or.inl rfl, ne_of_lt h1⟩
          · exact Or.inl rfl
          · exact Or.inr ⟨Or.inr he, hne⟩
        · rintro (rfl | ⟨rfl | he, hne⟩)
          · exact Or.inr (Or.inl rfl)
          · exact Or.inl rfl
          · exact Or.inr (Or.inr ⟨he, hne⟩)
      · rw [List.mem_cons]
        refine or_congr_right ⟨fun he => ⟨he, ?_⟩, fun h => h.1⟩
        rcases List.mem_cons.mp he with rfl | he
        · exact ne_of_gt h2
        · exact ne_of_gt (lt_trans h2 (hx _ he))
      · have hk : x.1 = k := le_antisymm (not_lt.mp h2) (not_lt.mp h1)
        rw [List.mem_cons, List.mem_cons]
        refine or_congr_right ⟨fun he => ⟨Or.inr he, ?_⟩, ?_⟩
        · exact ne_of_gt (hk ▸ hx _ he)
        · rintro ⟨rfl | he, hne⟩
          · exact absurd hk hne
          · exact he

theorem Sorted.insertEntry {l : List (K × V)} (hl : Sorted l) (k : K) (v : V) :
    Sorted (insertEntry k v l) := by
  induction l with
  | nil => exact List.pairwise_singleton _ _
  | cons x xs ih =>
      obtain ⟨hx, hxs⟩ := List.pairwise_cons.mp hl
      rw [SortedTable.insertEntry]
      split_ifs with h1 h2
      · refine List.pairwise_cons.mpr ⟨fun e he => ?_, ih hxs⟩
        rcases (mem_insertEntry hxs).mp he with rfl | ⟨he, _⟩
        · exact h1
        · exact hx _ he
      · refine List.pairwise_cons.mpr ⟨fun e he => ?_, hl⟩
        rcases List.mem_cons.mp he with rfl | he
        · exact h2
        · exact lt_trans h2 (hx _ he)
      · have hk : x.1 = k := le_antisymm (not_lt.mp h2) (not_lt.mp h1)
        exact List.pairwise_cons.mpr ⟨fun e he => hk ▸ hx _ he, hxs⟩

/-! ## The operations -/

/-- The table with no bindings. -/
def empty : SortedTable K V := ⟨[], List.Pairwise.nil⟩

/-- The value bound to a key. -/
def get? (t : SortedTable K V) (k : K) : Option V :=
  (t.entries.find? fun e => decide (e.1 = k)).map Prod.snd

/-- Bind a key, replacing what it was bound to. -/
def insert (t : SortedTable K V) (k : K) (v : V) : SortedTable K V :=
  ⟨insertEntry k v t.entries, t.sorted.insertEntry k v⟩

/-- Unbind a key. -/
def remove (t : SortedTable K V) (k : K) : SortedTable K V :=
  ⟨t.entries.filter fun e => decide (e.1 ≠ k), t.sorted.filter _⟩

/-- Keep the bindings a predicate accepts. -/
def retain (t : SortedTable K V) (p : K → V → Bool) : SortedTable K V :=
  ⟨t.entries.filter fun e => p e.1 e.2, t.sorted.filter _⟩

/-- Keep, of the bindings with a key in `[lo, hi)`, those a predicate accepts. -/
def retainIn (t : SortedTable K V) (lo hi : K) (p : K → V → Bool) :
    SortedTable K V :=
  t.retain fun k v => !(decide (lo ≤ k) && decide (k < hi)) || p k v

/-- The bindings with a key in `[lo, hi]`, in key order. -/
def range (t : SortedTable K V) (lo hi : K) : List (K × V) :=
  t.entries.filter fun e => decide (lo ≤ e.1) && decide (e.1 ≤ hi)

/-- The binding with the greatest key below `k`. -/
def lastBelow (t : SortedTable K V) (k : K) : Option (K × V) :=
  (t.entries.filter fun e => decide (e.1 < k)).getLast?

/-- The binding with the greatest key up to and including `k`. -/
def lastUpTo (t : SortedTable K V) (k : K) : Option (K × V) :=
  (t.entries.filter fun e => decide (e.1 ≤ k)).getLast?

/-- The binding with the least key from `k` on. -/
def firstFrom (t : SortedTable K V) (k : K) : Option (K × V) :=
  t.entries.find? fun e => decide (k ≤ e.1)

/-- The bound values, in key order. -/
def values (t : SortedTable K V) : List V := t.entries.map Prod.snd

/-- The table of a list of bindings, later ones replacing earlier ones. -/
def ofList (l : List (K × V)) : SortedTable K V :=
  l.foldl (fun t e => t.insert e.1 e.2) empty

/-! ## What each operation does to `get?` -/

theorem mem_entries {t : SortedTable K V} {k : K} {v : V} :
    (k, v) ∈ t.entries ↔ t.get? k = some v := by
  unfold get?
  constructor
  · intro hmem
    cases hf : t.entries.find? fun e => decide (e.1 = k) with
    | none =>
        have := List.find?_eq_none.mp hf (k, v) hmem
        simp at this
    | some e =>
        have hek : e.1 = k := by simpa using List.find?_some hf
        have he := t.sorted.eq_of_mem (List.mem_of_find?_eq_some hf) hmem hek
        rw [he]
        rfl
  · intro h
    obtain ⟨e, he, rfl⟩ := Option.map_eq_some_iff.mp h
    have hek : e.1 = k := by simpa using List.find?_some he
    rw [← hek]
    exact List.mem_of_find?_eq_some he

theorem mem_entries' {t : SortedTable K V} {e : K × V} :
    e ∈ t.entries ↔ t.get? e.1 = some e.2 := mem_entries

theorem get?_eq_none {t : SortedTable K V} {k : K} :
    t.get? k = none ↔ ∀ v, (k, v) ∉ t.entries := by
  simp only [mem_entries]
  exact ⟨fun h v => by simp [h], fun h => Option.eq_none_iff_forall_ne_some.mpr h⟩

@[simp] theorem get?_empty (k : K) : (empty : SortedTable K V).get? k = none :=
  rfl

theorem get?_eq_of_mem {t t' : SortedTable K V} {k k' : K}
    (h : ∀ v, (k, v) ∈ t.entries ↔ (k', v) ∈ t'.entries) :
    t.get? k = t'.get? k' := by
  apply Option.ext
  intro v
  rw [← mem_entries, ← mem_entries, h v]

@[simp] theorem get?_insert_self (t : SortedTable K V) (k : K) (v : V) :
    (t.insert k v).get? k = some v := by
  rw [← mem_entries]
  exact (mem_insertEntry t.sorted).mpr (Or.inl rfl)

theorem get?_insert_of_ne {t : SortedTable K V} {k k' : K} {v : V}
    (h : k' ≠ k) : (t.insert k v).get? k' = t.get? k' := by
  apply get?_eq_of_mem
  intro w
  refine (mem_insertEntry t.sorted).trans ⟨?_, fun hw => Or.inr ⟨hw, h⟩⟩
  rintro (hw | hw)
  · exact absurd (congrArg Prod.fst hw) h
  · exact hw.1

theorem get?_insert (t : SortedTable K V) (k k' : K) (v : V) :
    (t.insert k v).get? k' = if k' = k then some v else t.get? k' := by
  split_ifs with h
  · rw [h, get?_insert_self]
  · exact get?_insert_of_ne h

theorem get?_insert_eq_some {t : SortedTable K V} {k k' : K} {v v' : V}
    (h : (t.insert k v).get? k' = some v') :
    k' = k ∧ v' = v ∨ t.get? k' = some v' := by
  rw [get?_insert] at h
  split at h
  · next hk => exact Or.inl ⟨hk, (Option.some.inj h).symm⟩
  · exact Or.inr h

/-- An entry that replaces another takes no new place. -/
theorem isSome_get?_of_insert {t : SortedTable K V} {k k' : K} {v : V}
    (hk : (t.get? k).isSome = true) (h : ((t.insert k v).get? k').isSome = true) :
    (t.get? k').isSome = true := by
  obtain ⟨w, hw⟩ := Option.isSome_iff_exists.mp h
  rcases get?_insert_eq_some hw with ⟨rfl, _⟩ | hold
  · exact hk
  · exact Option.isSome_iff_exists.mpr ⟨w, hold⟩

theorem get?_remove (t : SortedTable K V) (k k' : K) :
    (t.remove k).get? k' = if k' = k then none else t.get? k' := by
  split_ifs with h
  · rw [get?_eq_none]
    intro v hv
    exact of_decide_eq_true (List.mem_filter.mp hv).2 h
  · apply get?_eq_of_mem
    intro v
    exact ⟨fun hv => (List.mem_filter.mp hv).1,
      fun hv => List.mem_filter.mpr ⟨hv, decide_eq_true h⟩⟩

theorem get?_remove_eq_some {t : SortedTable K V} {k k' : K} {v : V} :
    (t.remove k).get? k' = some v ↔ k' ≠ k ∧ t.get? k' = some v := by
  rw [get?_remove]
  split_ifs with h <;> simp [h]

theorem get?_retain (t : SortedTable K V) (p : K → V → Bool) (k : K) :
    (t.retain p).get? k = (t.get? k).filter (p k) := by
  apply Option.ext
  intro v
  rw [← mem_entries, Option.filter_eq_some_iff, ← mem_entries]
  exact List.mem_filter

theorem get?_retain_eq_some {t : SortedTable K V} {p : K → V → Bool} {k : K}
    {v : V} :
    (t.retain p).get? k = some v ↔ t.get? k = some v ∧ p k v = true := by
  rw [get?_retain, Option.filter_eq_some_iff]

theorem get?_retainIn_eq_some {t : SortedTable K V} {lo hi : K}
    {p : K → V → Bool} {k : K} {v : V} :
    (t.retainIn lo hi p).get? k = some v ↔
      t.get? k = some v ∧ (lo ≤ k → k < hi → p k v = true) := by
  rw [retainIn, get?_retain_eq_some]
  refine and_congr_right fun _ => ?_
  by_cases h1 : lo ≤ k <;> by_cases h2 : k < hi <;> simp [h1, h2]

theorem mem_range {t : SortedTable K V} {lo hi : K} {e : K × V} :
    e ∈ t.range lo hi ↔ t.get? e.1 = some e.2 ∧ lo ≤ e.1 ∧ e.1 ≤ hi := by
  simp [range, List.mem_filter, mem_entries']

theorem range_sorted (t : SortedTable K V) (lo hi : K) :
    Sorted (t.range lo hi) := t.sorted.filter _

/-- Two tables with the same bindings are equal. -/
theorem ext_get? {t t' : SortedTable K V} (h : ∀ k, t.get? k = t'.get? k) :
    t = t' := by
  obtain ⟨l, hl⟩ := t
  obtain ⟨l', hl'⟩ := t'
  have hmem : ∀ e, e ∈ l ↔ e ∈ l' := fun e => by
    have := h e.1
    exact (mem_entries' (t := ⟨l, hl⟩)).trans
      (by rw [this]; exact (mem_entries' (t := ⟨l', hl'⟩)).symm)
  have hnd : ∀ {m : List (K × V)}, Sorted m → m.Nodup := fun hm =>
    hm.imp fun hab heq => absurd (congrArg Prod.fst heq) (ne_of_lt hab)
  have hp : l.Perm l' := (List.perm_ext_iff_of_nodup (hnd hl) (hnd hl')).mpr hmem
  have hll : l = l' := hp.eq_of_pairwise
    (fun a b _ _ hab hba => absurd hab (lt_asymm hba)) hl hl'
  subst hll
  rfl

/-! ## The scans -/

theorem lastBelow_eq_some {t : SortedTable K V} {k k' : K} {v : V} :
    t.lastBelow k = some (k', v) ↔
      t.get? k' = some v ∧ k' < k ∧
        ∀ k'' v', t.get? k'' = some v' → k'' < k → k'' ≤ k' := by
  rw [lastBelow, (t.sorted.filter _).getLast?_eq_some]
  simp only [List.mem_filter, decide_eq_true_eq, mem_entries, and_assoc]
  refine and_congr_right fun _ => and_congr_right fun _ => ?_
  exact ⟨fun h k'' v' hg hlt => h (k'', v') ⟨mem_entries.mpr hg, hlt⟩,
    fun h e he => h e.1 e.2 (mem_entries'.mp he.1) he.2⟩

theorem lastBelow_eq_none {t : SortedTable K V} {k : K} :
    t.lastBelow k = none ↔ ∀ k' v, t.get? k' = some v → k ≤ k' := by
  rw [lastBelow, List.getLast?_eq_none_iff, List.filter_eq_nil_iff]
  constructor
  · intro h k' v hg
    simpa using h (k', v) (mem_entries.mpr hg)
  · intro h e he
    simpa using h e.1 e.2 (mem_entries'.mp he)

theorem lastUpTo_eq_some {t : SortedTable K V} {k k' : K} {v : V} :
    t.lastUpTo k = some (k', v) ↔
      t.get? k' = some v ∧ k' ≤ k ∧
        ∀ k'' v', t.get? k'' = some v' → k'' ≤ k → k'' ≤ k' := by
  rw [lastUpTo, (t.sorted.filter _).getLast?_eq_some]
  simp only [List.mem_filter, decide_eq_true_eq, mem_entries, and_assoc]
  refine and_congr_right fun _ => and_congr_right fun _ => ?_
  exact ⟨fun h k'' v' hg hle => h (k'', v') ⟨mem_entries.mpr hg, hle⟩,
    fun h e he => h e.1 e.2 (mem_entries'.mp he.1) he.2⟩

theorem lastUpTo_eq_none {t : SortedTable K V} {k : K} :
    t.lastUpTo k = none ↔ ∀ k' v, t.get? k' = some v → k < k' := by
  rw [lastUpTo, List.getLast?_eq_none_iff, List.filter_eq_nil_iff]
  constructor
  · intro h k' v hg
    simpa using h (k', v) (mem_entries.mpr hg)
  · intro h e he
    simpa using h e.1 e.2 (mem_entries'.mp he)

theorem firstFrom_eq_some {t : SortedTable K V} {k k' : K} {v : V} :
    t.firstFrom k = some (k', v) ↔
      t.get? k' = some v ∧ k ≤ k' ∧
        ∀ k'' v', t.get? k'' = some v' → k ≤ k'' → k' ≤ k'' := by
  rw [firstFrom, t.sorted.find?_eq_some, mem_entries]
  refine and_congr_right fun _ => and_congr_right fun _ => ?_
  exact ⟨fun h k'' v' hg hle => h (k'', v') (mem_entries.mpr hg) hle,
    fun h e he => h e.1 e.2 (mem_entries'.mp he)⟩

theorem firstFrom_eq_none {t : SortedTable K V} {k : K} :
    t.firstFrom k = none ↔ ∀ k' v, t.get? k' = some v → k' < k := by
  rw [firstFrom, List.find?_eq_none]
  constructor
  · intro h k' v hg
    simpa using h (k', v) (mem_entries.mpr hg)
  · intro h e he
    simpa using h e.1 e.2 (mem_entries'.mp he)

/-- The scan below a key reads the bindings below that key and no others. -/
theorem lastBelow_congr {t t' : SortedTable K V} {k : K}
    (h : ∀ k' < k, t.get? k' = t'.get? k') : t.lastBelow k = t'.lastBelow k := by
  cases h' : t'.lastBelow k with
  | none =>
      rw [lastBelow_eq_none] at h' ⊢
      intro k' v hg
      by_contra hlt
      rw [h k' (not_le.mp hlt)] at hg
      exact hlt (h' k' v hg)
  | some e =>
      obtain ⟨k₀, v₀⟩ := e
      rw [lastBelow_eq_some] at h' ⊢
      refine ⟨(h k₀ h'.2.1).trans h'.1, h'.2.1, fun k'' v' hg hlt => ?_⟩
      exact h'.2.2 k'' v' ((h k'' hlt).symm.trans hg) hlt

theorem lastUpTo_congr {t t' : SortedTable K V} {k : K}
    (h : ∀ k' ≤ k, t.get? k' = t'.get? k') : t.lastUpTo k = t'.lastUpTo k := by
  cases h' : t'.lastUpTo k with
  | none =>
      rw [lastUpTo_eq_none] at h' ⊢
      intro k' v hg
      by_contra hle
      rw [h k' (not_lt.mp hle)] at hg
      exact hle (h' k' v hg)
  | some e =>
      obtain ⟨k₀, v₀⟩ := e
      rw [lastUpTo_eq_some] at h' ⊢
      refine ⟨(h k₀ h'.2.1).trans h'.1, h'.2.1, fun k'' v' hg hle => ?_⟩
      exact h'.2.2 k'' v' ((h k'' hle).symm.trans hg) hle

/-- Nothing between two keys: the scan below either one finds the same. -/
theorem lastBelow_eq_of_gap {t : SortedTable K V} {k k' : K} (hle : k ≤ k')
    (h : ∀ j v, t.get? j = some v → j < k' → j < k) :
    t.lastBelow k' = t.lastBelow k := by
  cases h' : t.lastBelow k with
  | none =>
      rw [lastBelow_eq_none] at h' ⊢
      intro j v hg
      by_contra hlt
      exact absurd (h' j v hg) (not_le_of_gt (h j v hg (not_le.mp hlt)))
  | some e =>
      obtain ⟨k₀, v₀⟩ := e
      rw [lastBelow_eq_some] at h' ⊢
      exact ⟨h'.1, lt_of_lt_of_le h'.2.1 hle,
        fun j v hg hlt => h'.2.2 j v hg (h j v hg hlt)⟩

/-- What a table binds is what its list of values holds. -/
theorem mem_values {t : SortedTable K V} {v : V} :
    v ∈ t.values ↔ ∃ k, t.get? k = some v := by
  unfold values
  constructor
  · intro h
    obtain ⟨e, he, rfl⟩ := List.mem_map.mp h
    exact ⟨e.1, mem_entries'.mp he⟩
  · rintro ⟨k, hk⟩
    exact List.mem_map.mpr ⟨(k, v), mem_entries.mpr hk, rfl⟩

/-! ## Tables made of a list -/

theorem insertEntry_of_lt {k : K} {v : V} {l : List (K × V)}
    (h : ∀ e ∈ l, e.1 < k) : insertEntry k v l = l ++ [(k, v)] := by
  induction l with
  | nil => rfl
  | cons x xs ih =>
      rw [insertEntry, if_pos (h x List.mem_cons_self),
        ih fun e he => h e (List.mem_cons_of_mem _ he)]
      rfl

theorem foldl_insert_entries {t : SortedTable K V} {l : List (K × V)}
    (h : Sorted (t.entries ++ l)) :
    (l.foldl (fun t e => t.insert e.1 e.2) t).entries = t.entries ++ l := by
  induction l generalizing t with
  | nil => rw [List.append_nil]; rfl
  | cons x xs ih =>
      have htop : ∀ e ∈ t.entries, e.1 < x.1 := fun e he =>
        (List.pairwise_append.mp h).2.2 e he x List.mem_cons_self
      have hx : (t.insert x.1 x.2).entries = t.entries ++ [x] :=
        insertEntry_of_lt htop
      have hsorted : Sorted ((t.insert x.1 x.2).entries ++ xs) := by
        rw [hx, List.append_assoc]
        exact h
      rw [List.foldl_cons, ih hsorted, hx, List.append_assoc]
      rfl

/-- A list in key order lists the bindings of its table. -/
theorem entries_ofList {l : List (K × V)} (h : Sorted l) :
    (ofList l).entries = l :=
  foldl_insert_entries (t := empty) h

/-- Bindings put into a table in key order replace those of their keys. -/
theorem get?_foldl_insert {l : List (K × V)} (h : Sorted l) (t : SortedTable K V)
    (k : K) : (l.foldl (fun t e => t.insert e.1 e.2) t).get? k =
      ((⟨l, h⟩ : SortedTable K V).get? k).or (t.get? k) := by
  induction l generalizing t with
  | nil => rfl
  | cons x xs ih =>
      have hx := List.pairwise_cons.mp h
      rw [List.foldl_cons, ih hx.2, get?_insert]
      by_cases hk : k = x.1
      · have hnone : (⟨xs, hx.2⟩ : SortedTable K V).get? k = none := by
          rw [get?_eq_none]
          intro v hv
          have hlt := hx.1 _ hv
          rw [hk] at hlt
          exact lt_irrefl _ hlt
        have hsome : (⟨x :: xs, h⟩ : SortedTable K V).get? k = some x.2 := by
          rw [← mem_entries, hk]
          exact List.mem_cons_self
        rw [hnone, hsome, if_pos hk]
        rfl
      · have hsame : (⟨x :: xs, h⟩ : SortedTable K V).get? k =
            (⟨xs, hx.2⟩ : SortedTable K V).get? k := by
          refine get?_eq_of_mem fun v => ?_
          rw [List.mem_cons]
          refine or_iff_right fun heq => hk ?_
          exact congrArg Prod.fst heq
        rw [hsame, if_neg hk]

/-! ## Tables of counts -/

/-- One more of a key. -/
def bump (t : SortedTable K ℕ) (k : K) : SortedTable K ℕ :=
  t.insert k ((t.get? k).getD 0 + 1)

/-- How often each key occurs in a list. -/
def counts (l : List K) : SortedTable K ℕ := l.foldl bump empty

theorem get?_foldl_bump [BEq K] [LawfulBEq K] {t : SortedTable K ℕ} {k : K}
    {n : ℕ} (ht : t.get? k = if n = 0 then none else some n) (l : List K) :
    (l.foldl bump t).get? k =
      if n + l.count k = 0 then none else some (n + l.count k) := by
  induction l generalizing t n with
  | nil => exact ht
  | cons x xs ih =>
      rw [List.foldl_cons]
      by_cases hx : x = k
      · have hbump : (t.bump x).get? k = if n + 1 = 0 then none else some (n + 1) := by
          rw [hx, bump, get?_insert_self, ht]
          by_cases hn : n = 0 <;> simp [hn]
        rw [ih hbump, hx, List.count_cons_self, Nat.add_assoc, Nat.add_comm 1]
      · have hsame : (t.bump x).get? k = if n = 0 then none else some n := by
          rw [bump, get?_insert_of_ne (Ne.symm hx), ht]
        rw [ih hsame, List.count_cons_of_ne hx]

theorem get?_counts_eq_some [BEq K] [LawfulBEq K] {l : List K} {k : K} {n : ℕ} :
    (counts l).get? k = some n ↔ n = l.count k ∧ 0 < n := by
  rw [counts, get?_foldl_bump (n := 0) rfl, Nat.zero_add]
  by_cases h : l.count k = 0
  · rw [if_pos h, h]
    simp
  · rw [if_neg h]
    simp
    omega

end SortedTable
