import Mathlib.Data.List.Induction
import Mathlib.Logic.Relation
import Bfte.Lib.SortedTable

/-!
# Chains of items that name their parent

Items that commit to at most one parent: `ext c p` says that `c` extends `p`,
where `p = none` makes `c` the start of a chain. Where the parent is unique,
an item determines everything below it, and that is the whole content of this
file: a chain holds every ancestor of its items, and two chains from the start
are prefixes of one another as soon as the last item of one lies in the other.

The last section reads a table in key order as a chain. `TableChain` is the
local form, each binding extending the binding just below it, which is what a
step of a system can be checked against.
-/

namespace Lineage

variable {α : Type} (ext : α → Option α → Prop)

/-- Each item extends the one before it, the first one extends `p`. -/
def ChainFrom : Option α → List α → Prop
  | _, [] => True
  | p, a :: as => ext a p ∧ ChainFrom (some a) as

/-- `Descends a b`: following parents from `b` leads to `a`. -/
def Descends (a b : α) : Prop :=
  Relation.ReflTransGen (fun p c => ext c (some p)) a b

/-- An item extends one thing only. -/
def UniqueParent : Prop := ∀ c p q, ext c p → ext c q → p = q

variable {ext}

theorem Descends.refl (a : α) : Descends ext a a := Relation.ReflTransGen.refl

theorem Descends.child {a b c : α} (h : Descends ext a b) (hc : ext c (some b)) :
    Descends ext a c := Relation.ReflTransGen.tail h hc

/-- A proper descendant descends through its parent. -/
theorem Descends.cases {a c : α} (h : Descends ext a c) :
    a = c ∨ ∃ b, Descends ext a b ∧ ext c (some b) := by
  rcases Relation.ReflTransGen.cases_tail h with h | ⟨b, hb, hc⟩
  · exact Or.inl h.symm
  · exact Or.inr ⟨b, hb, hc⟩

/-- A measure that grows from parent to child grows along descent. -/
theorem Descends.le_of_lt {μ : α → ℕ}
    (hμ : ∀ c p, ext c (some p) → μ p < μ c) {a b : α}
    (h : Descends ext a b) : μ a ≤ μ b := by
  induction h with
  | refl => exact le_refl _
  | tail _ hc ih => exact ih.trans (Nat.le_of_lt (hμ _ _ hc))

/-- With such a measure, descent at equal measure is equality. -/
theorem Descends.eq_of_le {μ : α → ℕ}
    (hμ : ∀ c p, ext c (some p) → μ p < μ c) {a b : α}
    (h : Descends ext a b) (hle : μ b ≤ μ a) : a = b := by
  rcases h.cases with h | ⟨p, hp, hb⟩
  · exact h
  · have h1 := hp.le_of_lt hμ
    have h2 := hμ _ _ hb
    omega

/-! ## Chains -/

instance ChainFrom.decidable [∀ a p, Decidable (ext a p)] :
    ∀ (p : Option α) (l : List α), Decidable (ChainFrom ext p l)
  | _, [] => .isTrue trivial
  | p, a :: as =>
      have := ChainFrom.decidable (some a) as
      inferInstanceAs (Decidable (ext a p ∧ ChainFrom ext (some a) as))

theorem chainFrom_append {p : Option α} {l l' : List α} :
    ChainFrom ext p (l ++ l') ↔
      ChainFrom ext p l ∧ ChainFrom ext (l.getLast?.or p) l' := by
  induction l generalizing p with
  | nil => simp [ChainFrom]
  | cons a as ih =>
      have hlast : (a :: as).getLast?.or p = as.getLast?.or (some a) := by
        cases as with
        | nil => rfl
        | cons b bs => simp [List.getLast?_cons]
      simp only [List.cons_append, ChainFrom, ih, hlast, and_assoc]

theorem chainFrom_snoc {p : Option α} {l : List α} {a : α} :
    ChainFrom ext p (l ++ [a]) ↔
      ChainFrom ext p l ∧ ext a (l.getLast?.or p) := by
  rw [chainFrom_append]
  simp [ChainFrom]

/-- The parent of an item of a chain is in the chain, or is what the chain
starts from. -/
theorem ChainFrom.parent_mem (hu : UniqueParent ext) {p : Option α}
    {l : List α} (h : ChainFrom ext p l) {c d : α} (hc : c ∈ l)
    (hd : ext c (some d)) : d ∈ l ∨ p = some d := by
  induction l generalizing p with
  | nil => cases hc
  | cons a as ih =>
      obtain ⟨ha, has⟩ := h
      rcases List.mem_cons.mp hc with rfl | hc
      · exact Or.inr (hu _ _ _ ha hd)
      · rcases ih has hc with hmem | heq
        · exact Or.inl (List.mem_cons_of_mem _ hmem)
        · cases heq
          exact Or.inl List.mem_cons_self

/-- A chain from the start holds every ancestor of its items. -/
theorem ChainFrom.mem_of_descends (hu : UniqueParent ext) {l : List α}
    (h : ChainFrom ext none l) {a c : α} (hac : Descends ext a c) :
    c ∈ l → a ∈ l := by
  induction hac with
  | refl => exact id
  | tail _ hd ih =>
      intro hc
      rcases h.parent_mem hu hc hd with hmem | heq
      · exact ih hmem
      · cases heq

/-- The items below the last one of a chain are determined by it. -/
theorem ChainFrom.eq_of_last (hu : UniqueParent ext) {b : α} :
    ∀ {l l' : List α}, ChainFrom ext none (l ++ [b]) →
      ChainFrom ext none (l' ++ [b]) → l = l' := by
  intro l
  induction l using List.reverseRecOn generalizing b with
  | nil =>
      intro l' h h'
      have hb := (chainFrom_snoc.mp h).2
      have hb' := (chainFrom_snoc.mp h').2
      have hl' := hu _ _ _ hb hb'
      simp only [List.getLast?_nil, Option.or_none] at hl'
      exact (List.getLast?_eq_none_iff.mp hl'.symm).symm
  | append_singleton l a ih =>
      intro l' h h'
      obtain ⟨hl, hb⟩ := chainFrom_snoc.mp h
      obtain ⟨hl', hb'⟩ := chainFrom_snoc.mp h'
      have hlast := hu _ _ _ hb hb'
      simp only [List.getLast?_append, List.getLast?_singleton, Option.or_none,
        Option.some_or] at hlast
      obtain ⟨m, rfl⟩ := List.getLast?_eq_some_iff.mp hlast.symm
      rw [ih hl hl']

/-- Two chains from the start: once the last item of the one is in the other,
the one is a prefix of the other. -/
theorem ChainFrom.prefix_of_mem (hu : UniqueParent ext) {l l' : List α}
    (h : ChainFrom ext none l) (h' : ChainFrom ext none l')
    (hlast : ∀ b, l.getLast? = some b → b ∈ l') : l.IsPrefix l' := by
  cases hl : l.getLast? with
  | none =>
      rw [List.getLast?_eq_none_iff.mp hl]
      exact List.nil_prefix
  | some b =>
      obtain ⟨m, rfl⟩ := List.getLast?_eq_some_iff.mp hl
      obtain ⟨s, t, rfl⟩ := List.append_of_mem (hlast b hl)
      have hs : ChainFrom ext none (s ++ [b]) := by
        rw [show s ++ b :: t = (s ++ [b]) ++ t by simp, chainFrom_append] at h'
        exact h'.1
      rw [ChainFrom.eq_of_last hu h hs]
      exact ⟨t, by simp⟩

/-! ## Tables read as chains -/

section Table

variable {K : Type} [LinearOrder K]

/-- The value bound to the greatest key below `k`. -/
def below (t : SortedTable K α) (k : K) : Option α := (t.lastBelow k).map Prod.snd

variable (ext) in
/-- Every binding extends the one just below it. -/
def TableChain (t : SortedTable K α) : Prop :=
  ∀ k a, t.get? k = some a → ext a (below t k)

theorem below_congr {t t' : SortedTable K α} {k : K}
    (h : ∀ k' < k, t.get? k' = t'.get? k') : below t k = below t' k := by
  rw [below, below, SortedTable.lastBelow_congr h]

theorem below_eq_of_gap {t : SortedTable K α} {k k' : K} (hle : k ≤ k')
    (h : ∀ j v, t.get? j = some v → j < k' → j < k) : below t k' = below t k := by
  rw [below, below, SortedTable.lastBelow_eq_of_gap hle h]

/-- Two keys above every binding have the same one below them. -/
theorem below_eq_of_above {t : SortedTable K α} {k k' : K}
    (h : ∀ j v, t.get? j = some v → j < k ∧ j < k') : below t k = below t k' := by
  rcases le_total k k' with hle | hle
  · exact (below_eq_of_gap hle fun j v hj _ => (h j v hj).1).symm
  · exact below_eq_of_gap hle fun j v hj _ => (h j v hj).2

/-- In key order, what is below an entry is the entry before it. -/
theorem below_entry {t : SortedTable K α} {s r : List (K × α)} {e : K × α}
    (h : t.entries = s ++ e :: r) : below t e.1 = s.getLast?.map Prod.snd := by
  have hsorted := t.sorted
  rw [h] at hsorted
  obtain ⟨_, hr, hsr⟩ := List.pairwise_append.mp hsorted
  have hs : s.filter (fun x => decide (x.1 < e.1)) = s :=
    List.filter_eq_self.mpr fun x hx =>
      decide_eq_true (hsr x hx e List.mem_cons_self)
  have he : (e :: r).filter (fun x => decide (x.1 < e.1)) = [] := by
    refine List.filter_eq_nil_iff.mpr fun x hx => ?_
    rcases List.mem_cons.mp hx with rfl | hx
    · simp
    · simpa using le_of_lt ((List.pairwise_cons.mp hr).1 x hx)
  rw [below, SortedTable.lastBelow, h, List.filter_append, hs, he, List.append_nil]

theorem chainFrom_suffix_iff {t : SortedTable K α} :
    ∀ {r s : List (K × α)}, t.entries = s ++ r →
      (ChainFrom ext (s.getLast?.map Prod.snd) (r.map Prod.snd) ↔
        ∀ e ∈ r, ext e.2 (below t e.1)) := by
  intro r
  induction r with
  | nil => intro s _; simp [ChainFrom]
  | cons e r ih =>
      intro s h
      have hih := @ih (s ++ [e]) (by rw [h]; simp)
      simp only [List.getLast?_append, List.getLast?_singleton, Option.some_or,
        Option.map_some] at hih
      rw [List.map_cons, ChainFrom, hih, ← below_entry h, List.forall_mem_cons]

/-- A table is a chain in key order exactly when each binding extends the one
just below it. -/
theorem chainFrom_values_iff {t : SortedTable K α} :
    ChainFrom ext none t.values ↔ TableChain ext t := by
  have h : ChainFrom ext none t.values ↔
      ∀ e ∈ t.entries, ext e.2 (below t e.1) :=
    @chainFrom_suffix_iff _ ext _ _ t t.entries [] rfl
  refine h.trans ⟨fun hall k a hk => ?_, fun hall e he => ?_⟩
  · exact hall (k, a) (SortedTable.mem_entries.mpr hk)
  · exact hall e.1 e.2 (SortedTable.mem_entries'.mp he)

/-- A binding put above all others extends the chain if it extends its top. -/
theorem TableChain.insert_top {t : SortedTable K α} {k : K} {a : α}
    (h : TableChain ext t) (htop : ∀ j v, t.get? j = some v → j < k)
    (ha : ext a (below t k)) : TableChain ext (t.insert k a) := by
  intro j v hj
  rcases SortedTable.get?_insert_eq_some hj with ⟨rfl, rfl⟩ | hold
  · rw [below_congr fun i hi => SortedTable.get?_insert_of_ne (ne_of_lt hi)]
    exact ha
  · have hjk := htop j v hold
    rw [below_congr fun i hi =>
      SortedTable.get?_insert_of_ne (ne_of_lt (lt_trans hi hjk))]
    exact h j v hold

/-- Taking the top binding away leaves a chain. -/
theorem TableChain.remove_top {t : SortedTable K α} {k : K}
    (h : TableChain ext t) (htop : ∀ j v, t.get? j = some v → j ≤ k) :
    TableChain ext (t.remove k) := by
  intro j v hj
  obtain ⟨hne, hold⟩ := SortedTable.get?_remove_eq_some.mp hj
  have hjk := lt_of_le_of_ne (htop j v hold) hne
  have hbelow : below (t.remove k) j = below t j := below_congr fun i hi => by
    rw [SortedTable.get?_remove, if_neg (ne_of_lt (lt_trans hi hjk))]
  rw [hbelow]
  exact h j v hold

theorem below_eq_some {t : SortedTable K α} {k : K} {a : α} (h : below t k = some a) :
    ∃ q, t.get? q = some a ∧ q < k ∧ ∀ j v, t.get? j = some v → j < k → j ≤ q := by
  obtain ⟨⟨q, a'⟩, hlast, rfl⟩ := Option.map_eq_some_iff.mp h
  exact ⟨q, SortedTable.lastBelow_eq_some.mp hlast⟩

theorem below_eq_none {t : SortedTable K α} {k : K} (h : below t k = none) :
    ∀ j v, t.get? j = some v → k ≤ j :=
  SortedTable.lastBelow_eq_none.mp (Option.map_eq_none_iff.mp h)

/-- Two tables of items that know their key, both chains, are the same up to a key where
they have the same item. -/
theorem TableChain.agree [WellFoundedLT K] (hu : UniqueParent ext)
    {t t' : SortedTable K α} {key : α → K}
    (hkey : ∀ k a, t.get? k = some a → key a = k)
    (hkey' : ∀ k a, t'.get? k = some a → key a = k)
    (h : TableChain ext t) (h' : TableChain ext t') {k : K} {a : α}
    (hk : t.get? k = some a) (hk' : t'.get? k = some a) :
    ∀ j ≤ k, t.get? j = t'.get? j := by
  induction k using WellFoundedLT.induction generalizing a with
  | ind k ih =>
      intro j hj
      rcases eq_or_lt_of_le hj with rfl | hlt
      · rw [hk, hk']
      · have hsame : below t k = below t' k := hu _ _ _ (h k a hk) (h' k a hk')
        cases hp : below t k with
        | none =>
            have hnone := below_eq_none hp
            have hnone' := below_eq_none (hsame.symm.trans hp)
            rw [Option.eq_none_iff_forall_ne_some.mpr fun v hv =>
                absurd hlt (not_lt.mpr (hnone j v hv)),
              Option.eq_none_iff_forall_ne_some.mpr fun v hv =>
                absurd hlt (not_lt.mpr (hnone' j v hv))]
        | some p =>
            obtain ⟨q, hq, hqk, hmax⟩ := below_eq_some hp
            obtain ⟨q', hq', _, hmax'⟩ := below_eq_some (hsame.symm.trans hp)
            obtain rfl : q = q' := (hkey q p hq).symm.trans (hkey' q' p hq')
            rcases le_or_gt j q with hle | hgt
            · exact ih q hqk hq hq' j hle
            · rw [Option.eq_none_iff_forall_ne_some.mpr fun v hv =>
                  absurd hgt (not_lt.mpr (hmax j v hv hlt)),
                Option.eq_none_iff_forall_ne_some.mpr fun v hv =>
                  absurd hgt (not_lt.mpr (hmax' j v hv hlt))]

end Table

end Lineage
