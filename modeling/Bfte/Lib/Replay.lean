import Mathlib.Data.List.Basic

/-!
# Replaying a log

A machine goes through a log. A command either takes effect, and is noted down, or does
nothing. Two machines that do alike with every command of the log can be compared at any
time, however far each has got: what has taken effect on the one is a prefix of what has on
the other, and where the two have noted down the same, their states are alike.
-/

namespace Replay

variable {σ τ α β : Type}

/-- One command. -/
def step (f : σ → α → Option σ) (note : α → β) (s : σ × List β) (a : α) : σ × List β :=
  match f s.1 a with
  | some s' => (s', s.2 ++ [note a])
  | none => s

/-- All commands of a log. -/
def replay (f : σ → α → Option σ) (note : α → β) (log : List α) (s : σ × List β) :
    σ × List β :=
  log.foldl (step f note) s

variable {f : σ → α → Option σ} {g : τ → α → Option τ} {note : α → β}

@[simp] theorem replay_nil (s : σ × List β) : replay f note [] s = s := rfl

@[simp] theorem replay_cons (a : α) (log : List α) (s : σ × List β) :
    replay f note (a :: log) s = replay f note log (step f note s a) := rfl

theorem replay_append (log log' : List α) (s : σ × List β) :
    replay f note (log ++ log') s = replay f note log' (replay f note log s) :=
  List.foldl_append

/-! ## One machine -/

theorem step_cases (f : σ → α → Option σ) (note : α → β) (s : σ × List β) (a : α) :
    (f s.1 a = none ∧ step f note s a = s) ∨
      ∃ s', f s.1 a = some s' ∧ step f note s a = (s', s.2 ++ [note a]) := by
  unfold step
  cases h : f s.1 a with
  | none => exact Or.inl ⟨rfl, rfl⟩
  | some s' => exact Or.inr ⟨s', rfl, rfl⟩

/-- What has been noted down stays, and if nothing is added nothing has changed. -/
theorem replay_grows (log : List α) (s : σ × List β) :
    s.2 <+: (replay f note log s).2 ∧ ((replay f note log s).2 = s.2 →
      replay f note log s = s) := by
  induction log generalizing s with
  | nil => exact ⟨List.prefix_refl _, fun _ => rfl⟩
  | cons a log ih =>
      obtain ⟨hgrown, hsame⟩ := ih (step f note s a)
      rw [replay_cons]
      rcases step_cases f note s a with ⟨_, hstep⟩ | ⟨s', _, hstep⟩
      · rw [hstep] at hgrown hsame ⊢
        exact ⟨hgrown, hsame⟩
      · have hnoted : (step f note s a).2 = s.2 ++ [note a] := by rw [hstep]
        rw [hnoted] at hgrown
        refine ⟨(List.prefix_append _ _).trans hgrown, fun heq => ?_⟩
        rw [heq] at hgrown
        have hlen := hgrown.length_le
        rw [List.length_append, List.length_singleton] at hlen
        exact absurd hlen (Nat.not_succ_le_self _)

/-- Further on in the log. -/
theorem replay_take_grows {log : List α} {k k' : ℕ} (hle : k ≤ k') (s : σ × List β) :
    (replay f note (log.take k) s).2 <+: (replay f note (log.take k') s).2 ∧
      ((replay f note (log.take k') s).2 = (replay f note (log.take k) s).2 →
        replay f note (log.take k') s = replay f note (log.take k) s) := by
  obtain ⟨d, rfl⟩ := Nat.exists_eq_add_of_le hle
  rw [List.take_add, replay_append]
  exact replay_grows _ _

/-- What is noted down on the way comes from the log. -/
theorem replay_noted (log : List α) (s : σ × List β) :
    ∃ l, (replay f note log s).2 = s.2 ++ l ∧ ∀ b ∈ l, ∃ a ∈ log, note a = b := by
  induction log generalizing s with
  | nil => exact ⟨[], (List.append_nil _).symm, fun b hb => by cases hb⟩
  | cons a log ih =>
      obtain ⟨l, hl, hfrom⟩ := ih (step f note s a)
      have hlater : ∀ b ∈ l, ∃ a' ∈ a :: log, note a' = b := by
        intro b hb
        obtain ⟨a', ha', heq⟩ := hfrom b hb
        exact ⟨a', List.mem_cons_of_mem a ha', heq⟩
      rw [replay_cons, hl]
      rcases step_cases f note s a with ⟨_, hstep⟩ | ⟨s', _, hstep⟩
      · exact ⟨l, by rw [hstep], hlater⟩
      · refine ⟨note a :: l, by rw [hstep, List.append_assoc]; rfl, fun b hb => ?_⟩
        rcases List.mem_cons.mp hb with rfl | hb
        · exact ⟨a, List.mem_cons_self, rfl⟩
        · exact hlater b hb

variable (f note) in
/-- What is noted down later comes from later in the log. -/
theorem noted_later (log : List α) {k k' : ℕ} (hle : k ≤ k') (s : σ × List β) :
    ∃ l, (replay f note (log.take k') s).2 = (replay f note (log.take k) s).2 ++ l ∧
      ∀ b ∈ l, ∃ a ∈ log.drop k, note a = b := by
  obtain ⟨d, rfl⟩ := Nat.exists_eq_add_of_le hle
  rw [List.take_add, replay_append]
  obtain ⟨l, hl, hfrom⟩ := replay_noted ((log.drop k).take d)
    (replay f note (log.take k) s)
  refine ⟨l, hl, fun b hb => ?_⟩
  obtain ⟨a, ha, heq⟩ := hfrom b hb
  exact ⟨a, List.mem_of_mem_take ha, heq⟩

/-! ## Two machines -/

/-- The states are alike, and the same has taken effect. -/
def Alike (R : σ → τ → Prop) (s : σ × List β) (t : τ × List β) : Prop :=
  R s.1 t.1 ∧ s.2 = t.2

variable {R : σ → τ → Prop}

theorem Alike.step {s : σ × List β} {t : τ × List β} {a : α} (h : Alike R s t)
    (ha : ∀ s t, R s t → Option.Rel R (f s a) (g t a)) :
    Alike R (step f note s a) (Replay.step g note t a) := by
  have hrel := ha s.1 t.1 h.1
  unfold Replay.step
  cases hf : f s.1 a with
  | none =>
      rw [hf] at hrel
      cases hg : g t.1 a with
      | none => exact h
      | some t' =>
          rw [hg] at hrel
          cases hrel
  | some s' =>
      rw [hf] at hrel
      cases hg : g t.1 a with
      | none =>
          rw [hg] at hrel
          cases hrel
      | some t' =>
          rw [hg] at hrel
          cases hrel with
          | some hR => exact ⟨hR, congrArg (· ++ [note a]) h.2⟩

theorem Alike.replay {log : List α} {s : σ × List β} {t : τ × List β} (h : Alike R s t)
    (hlog : ∀ a ∈ log, ∀ s t, R s t → Option.Rel R (f s a) (g t a)) :
    Alike R (replay f note log s) (Replay.replay g note log t) := by
  induction log generalizing s t with
  | nil => exact h
  | cons a log ih =>
      exact ih (h.step (hlog a List.mem_cons_self))
        fun b hb => hlog b (List.mem_cons_of_mem _ hb)

/-- The same holds of a log of commands that all have to take effect. -/
theorem rel_foldlM {log : List α} {s : σ} {t : τ} (h : R s t)
    (hlog : ∀ a ∈ log, ∀ s t, R s t → Option.Rel R (f s a) (g t a)) :
    Option.Rel R (log.foldlM f s) (log.foldlM g t) := by
  induction log generalizing s t with
  | nil => exact .some h
  | cons a log ih =>
      rw [List.foldlM_cons, List.foldlM_cons]
      have hrel := hlog a List.mem_cons_self s t h
      cases hf : f s a with
      | none =>
          rw [hf] at hrel
          cases hg : g t a with
          | none => exact .none
          | some t' =>
              rw [hg] at hrel
              cases hrel
      | some s' =>
          rw [hf] at hrel
          cases hg : g t a with
          | none =>
              rw [hg] at hrel
              cases hrel
          | some t' =>
              rw [hg] at hrel
              cases hrel with
              | some hR => exact ih hR fun b hb => hlog b (List.mem_cons_of_mem _ hb)

variable (note) in
/-- The one machine has got as far as `k` in the log and the other as far as `k'`. -/
theorem Alike.anywhere {log : List α} {s : σ × List β} {t : τ × List β}
    (h : Alike R s t)
    (hlog : ∀ a ∈ log, ∀ s t, R s t → Option.Rel R (f s a) (g t a)) (k k' : ℕ) :
    ((Replay.replay f note (log.take k) s).2 <+:
        (Replay.replay g note (log.take k') t).2 ∨
      (Replay.replay g note (log.take k') t).2 <+:
        (Replay.replay f note (log.take k) s).2) ∧
    ((Replay.replay f note (log.take k) s).2 =
        (Replay.replay g note (log.take k') t).2 →
      R (Replay.replay f note (log.take k) s).1
        (Replay.replay g note (log.take k') t).1) := by
  have hat : ∀ k, Alike R (Replay.replay f note (log.take k) s)
      (Replay.replay g note (log.take k) t) :=
    fun k => h.replay fun a ha => hlog a (List.mem_of_mem_take ha)
  rcases Nat.le_total k k' with hle | hle
  · obtain ⟨hgrown, hsame⟩ := replay_take_grows (f := g) hle t
    obtain ⟨hR, heq⟩ := hat k
    rw [heq]
    refine ⟨Or.inl hgrown, fun hnoted => ?_⟩
    rw [hsame hnoted.symm]
    exact hR
  · obtain ⟨hgrown, hsame⟩ := replay_take_grows (f := f) hle s
    obtain ⟨hR, heq⟩ := hat k'
    rw [← heq]
    refine ⟨Or.inr hgrown, fun hnoted => ?_⟩
    rw [hsame hnoted]
    exact hR

end Replay
