import Mathlib.Logic.Relation

/-!
# What can be brought about one thing at a time

A system may be able to get to where several things hold by seeing to them one after the
other. That needs two facts: what holds stays, and each thing can still be seen to from
anywhere the system may have got to in the meantime.

Things that spread along links are of this kind: who has it can pass it on over a link, and
so everyone at the end of a path of links can come to have it.
-/

namespace Spread

open Relation (ReflTransGen)

variable {σ κ ι : Type} {Step : σ → σ → Prop}

/-- What holds stays. -/
def Stays (Step : σ → σ → Prop) (P : σ → Prop) : Prop := ∀ s s', Step s s' → P s → P s'

/-- It can be brought about. -/
def Can (Step : σ → σ → Prop) (P : σ → Prop) (s : σ) : Prop :=
  ∃ s', ReflTransGen Step s s' ∧ P s'

theorem Stays.reach {P : σ → Prop} (h : Stays Step P) {s s' : σ}
    (hreach : ReflTransGen Step s s') (hs : P s) : P s' := by
  induction hreach with
  | refl => exact hs
  | tail _ hstep ih => exact h _ _ hstep ih

theorem Can.of_reach {P : σ → Prop} {s s' : σ} (hreach : ReflTransGen Step s s')
    (h : Can Step P s') : Can Step P s := by
  obtain ⟨s'', hreach', hP⟩ := h
  exact ⟨s'', hreach.trans hreach', hP⟩

/-- Things that stay and can be brought about from anywhere can all be brought about. -/
theorem can_all {P : κ → σ → Prop} {l : List κ} (hstays : ∀ k ∈ l, Stays Step (P k)) {s : σ}
    (hcan : ∀ k ∈ l, ∀ s', ReflTransGen Step s s' → Can Step (P k) s') :
    Can Step (fun s' => ∀ k ∈ l, P k s') s := by
  induction l generalizing s with
  | nil => exact ⟨s, .refl, by simp⟩
  | cons k l ih =>
      obtain ⟨hk, hl⟩ := List.forall_mem_cons.mp hstays
      obtain ⟨hcank, hcanl⟩ := List.forall_mem_cons.mp hcan
      obtain ⟨s₁, hreach₁, hP⟩ := hcank s .refl
      obtain ⟨s₂, hreach₂, hPl⟩ := ih hl fun k' hk' s' hs' =>
        hcanl k' hk' s' (hreach₁.trans hs')
      refine ⟨s₂, hreach₁.trans hreach₂, fun k' hk' => ?_⟩
      rcases List.mem_cons.mp hk' with rfl | hk'
      · exact hk.reach hreach₂ hP
      · exact hPl k' hk'

/-- Links stay, who has it keeps it, and can pass it on over a link. -/
structure Spreads (Step : σ → σ → Prop) (Link : ι → ι → σ → Prop) (Has : ι → σ → Prop) :
    Prop where
  link : ∀ i j, Stays Step (Link i j)
  keep : ∀ i, Stays Step (Has i)
  pass : ∀ i j s, Link i j s → Has i s → Can Step (Has j) s

variable {Link : ι → ι → σ → Prop} {Has : ι → σ → Prop} {s : σ} {i : ι}

/-- Everyone at the end of a path can come to have it. -/
theorem Spreads.can_reach (h : Spreads Step Link Has) {j : ι}
    (hpath : ReflTransGen (fun i j => Link i j s) i j) (hi : Has i s) :
    Can Step (Has j) s := by
  induction hpath with
  | refl => exact ⟨s, .refl, hi⟩
  | tail _ hlink ih =>
      obtain ⟨s', hreach, hj⟩ := ih
      exact .of_reach hreach (h.pass _ _ s' ((h.link _ _).reach hreach hlink) hj)

/-- And all of them can. -/
theorem Spreads.can_reach_all (h : Spreads Step Link Has) {l : List ι}
    (hpath : ∀ j ∈ l, ReflTransGen (fun i j => Link i j s) i j) (hi : Has i s) :
    Can Step (fun s' => ∀ j ∈ l, Has j s') s := by
  refine can_all (fun j _ => h.keep j) fun j hj s' hs' => ?_
  refine h.can_reach ?_ ((h.keep i).reach hs' hi)
  exact ReflTransGen.mono (fun a b hlink => (h.link a b).reach hs' hlink) _ _ (hpath j hj)

end Spread
