/-!
# Runs, and what every guarded run keeps

A system that takes one action at a time is a function `step : σ → α → σ`; an
action that fails leaves the state where it was. `Guarded G s as` says that
each action of `as` meets `G` in the state it is taken in. The induction over
a run is done here once: a property that the guarded steps keep holds at the
end of every guarded run, and since a prefix of a guarded run is guarded, in
every state on the way.
-/

namespace Trail

variable {σ α : Type} (step : σ → α → σ)

/-- The state a run ends in. -/
def run (s : σ) (as : List α) : σ := as.foldl step s

/-- Every action of the run meets `G` in the state it is taken in. -/
def Guarded (G : σ → α → Prop) : σ → List α → Prop
  | _, [] => True
  | s, a :: as => G s a ∧ Guarded G (step s a) as

variable {step} {G G' : σ → α → Prop}

instance Guarded.decidable [∀ s a, Decidable (G s a)] :
    ∀ (s : σ) (as : List α), Decidable (Guarded step G s as)
  | _, [] => .isTrue trivial
  | s, a :: as =>
      have := Guarded.decidable (step s a) as
      inferInstanceAs (Decidable (G s a ∧ Guarded step G (step s a) as))

@[simp] theorem run_nil (s : σ) : run step s [] = s := rfl

@[simp] theorem run_cons (s : σ) (a : α) (as : List α) :
    run step s (a :: as) = run step (step s a) as := rfl

theorem run_append (s : σ) (as bs : List α) :
    run step s (as ++ bs) = run step (run step s as) bs := by
  simp [run]

theorem Guarded.mono (h : ∀ s a, G s a → G' s a) :
    ∀ {as : List α} {s : σ}, Guarded step G s as → Guarded step G' s as
  | [], _, _ => trivial
  | _ :: _, _, hg => ⟨h _ _ hg.1, Guarded.mono h hg.2⟩

theorem Guarded.of_forall : ∀ {as : List α} {s : σ}, (∀ a ∈ as, ∀ s, G s a) →
    Guarded step G s as
  | [], _, _ => trivial
  | _ :: _, _, h => ⟨h _ List.mem_cons_self _,
      Guarded.of_forall fun a ha => h a (List.mem_cons_of_mem _ ha)⟩

theorem Guarded.and : ∀ {as : List α} {s : σ}, Guarded step G s as →
    Guarded step G' s as → Guarded step (fun s a => G s a ∧ G' s a) s as
  | [], _, _, _ => trivial
  | _ :: _, _, hg, hg' => ⟨⟨hg.1, hg'.1⟩, hg.2.and hg'.2⟩

theorem guarded_append {s : σ} {as bs : List α} :
    Guarded step G s (as ++ bs) ↔
      Guarded step G s as ∧ Guarded step G (run step s as) bs := by
  induction as generalizing s with
  | nil => simp [Guarded]
  | cons a as ih => simp [Guarded, ih, and_assoc]

/-- What every guarded step keeps, every guarded run keeps. -/
theorem Guarded.invariant {I : σ → Prop}
    (hstep : ∀ s a, I s → G s a → I (step s a)) {as : List α} {s : σ}
    (hs : I s) (hg : Guarded step G s as) : I (run step s as) := by
  induction as generalizing s with
  | nil => exact hs
  | cons a as ih => exact ih (hstep s a hs hg.1) hg.2

/-- What every step keeps, every run keeps. -/
theorem run_invariant {I : σ → Prop} (hstep : ∀ s a, I s → I (step s a)) {s : σ}
    (hs : I s) (as : List α) : I (run step s as) := by
  induction as generalizing s with
  | nil => exact hs
  | cons a as ih => exact ih (hstep s a hs)

/-- If the guard says exactly which steps keep a property, then exactly the guarded
runs have it in every state on the way. `J` is what holds in any case. -/
theorem guarded_iff {I J : σ → Prop} (hJ : ∀ s a, J s → J (step s a))
    (hstep : ∀ s a, J s → I s → (I (step s a) ↔ G s a)) {as : List α} {s : σ}
    (hs : J s) (hI : I s) :
    Guarded step G s as ↔ ∀ before, before <+: as → I (run step s before) := by
  induction as generalizing s with
  | nil =>
      refine iff_of_true trivial fun before hbefore => ?_
      rw [List.prefix_nil.mp hbefore]
      exact hI
  | cons a as ih =>
      constructor
      · rintro ⟨hg, hrest⟩ before hbefore
        rcases List.prefix_cons_iff.mp hbefore with rfl | ⟨rest, rfl, hpre⟩
        · exact hI
        · exact (ih (hJ s a hs) ((hstep s a hs hI).mpr hg)).mp hrest rest hpre
      · intro hall
        have hfirst : I (step s a) :=
          hall [a] (List.cons_prefix_cons.mpr ⟨rfl, List.nil_prefix⟩)
        refine ⟨(hstep s a hs hI).mp hfirst, (ih (hJ s a hs) hfirst).mpr ?_⟩
        intro before hbefore
        exact hall (a :: before) (List.cons_prefix_cons.mpr ⟨rfl, hbefore⟩)

/-- If every guarded step of a system is matched by a guarded run of another one, so is
every guarded run. -/
theorem Guarded.simulate {τ β : Type} {step' : τ → β → τ} {H : τ → β → Prop}
    {Sim : σ → τ → Prop}
    (hstep : ∀ s a t, Sim s t → G s a →
      ∃ bs, Guarded step' H t bs ∧ Sim (step s a) (run step' t bs)) {as : List α} {s : σ}
    {t : τ} (hs : Sim s t) (hg : Guarded step G s as) :
    ∃ bs, Guarded step' H t bs ∧ Sim (run step s as) (run step' t bs) := by
  induction as generalizing s t with
  | nil => exact ⟨[], trivial, hs⟩
  | cons a as ih =>
      obtain ⟨bs, hbs, hsim⟩ := hstep s a t hs hg.1
      obtain ⟨bs', hbs', hsim'⟩ := ih hsim hg.2
      refine ⟨bs ++ bs', guarded_append.mpr ⟨hbs, hbs'⟩, ?_⟩
      rw [run_append]
      exact hsim'

end Trail
