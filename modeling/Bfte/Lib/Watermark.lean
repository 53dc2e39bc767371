import Mathlib.Logic.Function.Basic
import Mathlib.Logic.Relation
import Bfte.Lib.OrderStat

/-!
# A mark that follows votes

Members vote for how far they have got, and the mark is the vote at position `k` once the
votes are sorted. It is not kept up with every vote: a vote that is no higher than the last
one of its member is written down and nothing else. Watchers are shown the mark when it
goes up, and when they ask for it anew.

That is enough for the mark never to be behind. Votes that are only written down make less
of the members reach a value, never more, so a mark that was not behind before them is not
behind after them. It may well be ahead.
-/

namespace Watermark

variable {κ α : Type} [DecidableEq κ] [LinearOrder α]

structure State (κ α : Type) where
  votes : κ → α
  mark : α
  shown : α

/-- All but `k` of the members have voted for a value, or for more. -/
def Reached (members : List κ) (k : ℕ) (votes : κ → α) (p : α) : Prop :=
  members.length - k ≤ members.countP fun i => decide (p ≤ votes i)

/-- One thing that happens, with the vote it is about. -/
inductive Move (members : List κ) (k : ℕ) : Option (κ × α) → State κ α → State κ α → Prop
  | recorded (s : State κ α) (i : κ) (v : α) (hle : v ≤ s.votes i) :
      Move members k (some (i, v)) s { s with votes := Function.update s.votes i v }
  | recounted (s : State κ α) (i : κ) (v m : α)
      (hm : OrderStat.kth (members.map (Function.update s.votes i v)) k = some m) :
      Move members k (some (i, v)) s
        ⟨Function.update s.votes i v, m, if s.mark < m then m else s.shown⟩
  | shown (s : State κ α) : Move members k none s { s with shown := s.mark }

/-- Things that happen one after the other, all about votes of some keys. -/
def Moves (members : List κ) (k : ℕ) (P : κ → Prop) : State κ α → State κ α → Prop :=
  Relation.ReflTransGen fun s s' => ∃ vote, (∀ e ∈ vote, P e.1) ∧ Move members k vote s s'

/-- The mark is not behind the votes, and what is shown is not behind the mark. -/
structure Current (members : List κ) (k : ℕ) (s : State κ α) : Prop where
  mark : ∀ p, Reached members k s.votes p → p ≤ s.mark
  shown : s.mark ≤ s.shown

variable {members : List κ} {k : ℕ} {s s' : State κ α} {p : α}

omit [DecidableEq κ] in
theorem Reached.mono {votes votes' : κ → α} (hle : ∀ i, votes i ≤ votes' i)
    (h : Reached members k votes p) : Reached members k votes' p := by
  refine h.trans (List.countP_mono_left fun i _ hi => ?_)
  exact decide_eq_true ((of_decide_eq_true hi).trans (hle i))

omit [DecidableEq κ] in
theorem reached_iff_le_kth {votes : κ → α} {m : α}
    (hm : OrderStat.kth (members.map votes) k = some m) :
    Reached members k votes p ↔ p ≤ m := by
  rw [OrderStat.le_kth_iff hm p, List.length_map, List.countP_map]
  exact Iff.rfl

omit [DecidableEq κ] in
/-- Enough different members that have each got to a value reach it. -/
theorem reached_of_voters {votes : κ → α} {voters : List κ} (hnodup : voters.Nodup)
    (hmembers : ∀ i ∈ voters, i ∈ members) (henough : members.length - k ≤ voters.length)
    (hvotes : ∀ i ∈ voters, p ≤ votes i) : Reached members k votes p := by
  refine henough.trans ?_
  rw [List.countP_eq_length_filter]
  refine (List.subperm_of_subset hnodup fun i hi => ?_).length_le
  exact List.mem_filter.mpr ⟨hmembers i hi, decide_eq_true (hvotes i hi)⟩

omit [DecidableEq κ] in
/-- What is reached has been voted for. -/
theorem Reached.exists_le {votes : κ → α} (h : Reached members k votes p)
    (hpos : 0 < members.length - k) : ∃ i ∈ members, p ≤ votes i := by
  obtain ⟨i, hi, hle⟩ := List.countP_pos_iff.mp (hpos.trans_le h)
  exact ⟨i, hi, of_decide_eq_true hle⟩

theorem Move.current {vote : Option (κ × α)} (h : Move members k vote s s')
    (hs : Current members k s) : Current members k s' := by
  cases h with
  | recorded _ i v hle =>
      refine ⟨fun p hp => hs.mark p (hp.mono fun j => ?_), hs.shown⟩
      show Function.update s.votes i v j ≤ s.votes j
      rw [Function.update_apply]
      split
      · next heq => rw [heq]; exact hle
      · exact le_refl _
  | recounted _ i v m hm =>
      refine ⟨fun p hp => (reached_iff_le_kth hm).mp hp, ?_⟩
      show m ≤ if s.mark < m then m else s.shown
      split
      · exact le_refl _
      · next hle => exact (not_lt.mp hle).trans hs.shown
  | shown => exact ⟨hs.mark, le_refl _⟩

/-- A vote that is about another key leaves a vote alone. -/
theorem Move.votes_of_ne {vote : Option (κ × α)} (h : Move members k vote s s') {i : κ}
    (hi : ∀ e ∈ vote, e.1 ≠ i) : s'.votes i = s.votes i := by
  cases h with
  | recorded _ j v _ => exact Function.update_of_ne (hi (j, v) rfl).symm _ _
  | recounted _ j v m _ => exact Function.update_of_ne (hi (j, v) rfl).symm _ _
  | shown => rfl

theorem Move.votes_self {i : κ} {v : α} (h : Move members k (some (i, v)) s s') :
    s'.votes i = v := by
  cases h with
  | recorded => exact Function.update_self ..
  | recounted => exact Function.update_self ..

variable {P Q : κ → Prop}

theorem Moves.mono (h : Moves members k P s s') (hPQ : ∀ i, P i → Q i) :
    Moves members k Q s s' := by
  induction h with
  | refl => exact .refl
  | tail _ hmove ih =>
      obtain ⟨vote, hvote, hmove⟩ := hmove
      exact ih.tail ⟨vote, fun e he => hPQ e.1 (hvote e he), hmove⟩

theorem Moves.current (h : Moves members k P s s') (hs : Current members k s) :
    Current members k s' := by
  induction h with
  | refl => exact hs
  | tail _ hmove ih =>
      obtain ⟨_, _, hmove⟩ := hmove
      exact hmove.current ih

theorem Moves.votes_of_not (h : Moves members k P s s') {i : κ} (hi : ¬ P i) :
    s'.votes i = s.votes i := by
  induction h with
  | refl => rfl
  | tail _ hmove ih =>
      obtain ⟨vote, hvote, hmove⟩ := hmove
      refine (hmove.votes_of_ne fun e he heq => ?_).trans ih
      rw [← heq] at hi
      exact hi (hvote e he)

theorem Move.moves {vote : Option (κ × α)} (h : Move members k vote s s')
    (hvote : ∀ e ∈ vote, P e.1) : Moves members k P s s' :=
  .single ⟨vote, hvote, h⟩

end Watermark
