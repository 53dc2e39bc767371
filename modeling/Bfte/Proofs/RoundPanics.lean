import Bfte.Proofs.Counting
import Bfte.Proofs.RoundStop

/-!
# When the round check panics

While the params stay as they are, with peers in them, there is one thing that makes
`check_round_end` panic: the last round number there is comes to its end. Proposals
and dummy votes are not stored ahead of the current round, so that happens in this
round only.
-/

namespace Bfte

namespace Consensus

variable {D S : Type} [LinearOrder D]

/-- Something that is stored ends the last round, other than a notarized block. -/
def LastRoundOver (P : ConsensusParams D) (db : Db D S) : Prop :=
  ((db.consBlocksProposals.get? BlockRound.MAX).isSome = true ∧
    (NumPeers.mk P.peers.len).threshold ≤ db.getNumVotesProposal BlockRound.MAX) ∨
  (NumPeers.mk P.peers.len).threshold ≤ db.getNumVotesDummy BlockRound.MAX

variable {P : ConsensusParams D}

/-! ## The loop -/

section Loop

variable [Hashing D]

/-- What the loop needs not to panic in a round. -/
structure Sound (P : ConsensusParams D) (db : Db D S) : Prop where
  params : ∀ r, (db.getConsensusParams r : Outcome Empty _) = .ok P
  len : P.peers.len ≤ 255
  manned : P.peers.len ≠ 0
  proposal : ∀ r p, db.consBlocksProposals.get? r = some p →
    p.round = r ∧ p.isDummy = false

theorem Sound.params_eq {ε : Type} {db : Db D S} (h : Sound P db)
    {r : BlockRound} {p : ConsensusParams D}
    (hp : (db.getConsensusParams r : Outcome ε _) = .ok p) : p = P :=
  Db.getConsensusParams_unique hp (h.params r)

theorem Sound.ready {db : Db D S} (h : Sound P db) (r : BlockRound) :
    TurnReady db r where
  params := ⟨P, h.params r, h.len, h.manned⟩
  proposal := h.proposal r

theorem roundEndTurn_not_panicked {start : BlockRound}
    {highest : Option (BlockHeader D)} {v : RoundEnd D S} (h : Sound P v.db) :
    ¬ (roundEndTurn start highest v).Panicked := by
  rcases (h.ready v.curRound).turn_outcome start highest with ⟨t, ht⟩ | ⟨ht, _⟩
  · rw [ht]
    exact Outcome.not_panicked_ok
  · rw [ht]
    exact Outcome.not_panicked_raise

/-- A turn that goes on leaves what it needs as it was, and adds no votes. -/
theorem TurnCase.next_sound {start : BlockRound}
    {highest : Option (BlockHeader D)} {v v' : RoundEnd D S}
    (h : TurnCase start highest v (.next v')) (hsound : Sound P v.db) :
    Sound P v'.db ∧ (LastRoundOver P v'.db → LastRoundOver P v.db) := by
  obtain ⟨_, hparams, hprop, hdummy⟩ := h.next_db
  have hvotes : ∀ j, (v'.db.getVoteBlock BlockRound.MAX j).isSome = true →
      (v.db.getVoteBlock BlockRound.MAX j).isSome = true := by
    cases h with
    | notarized => exact fun j hj => hj
    | timedOut => exact fun j hj => hj
    | voted params p db o above hp' hp hvotes hdb =>
        obtain ⟨_, _, hres⟩ := Db.insertNotarizedBlock_eq_ok.mp hdb
        rcases hres with ⟨_, _, hres⟩ | ⟨_, hres⟩
        · cases hres
          exact fun j hj => hj
        · cases hres
          intro j hj
          obtain ⟨w, hw⟩ := Option.isSome_iff_exists.mp hj
          exact Option.isSome_iff_exists.mpr ⟨w, (Db.get?_retainVotesFor.mp hw).1⟩
  refine ⟨⟨fun r => ?_, hsound.len, hsound.manned, ?_⟩, Or.imp ?_ ?_⟩
  · rw [hparams.getConsensusParams]
    exact hsound.params r
  · rw [hprop]
    exact hsound.proposal
  · rintro ⟨hsome, henough⟩
    rw [hprop] at hsome
    exact ⟨hsome, henough.trans (votesAt_length_le hvotes)⟩
  · intro henough
    unfold Db.getNumVotesDummy at henough ⊢
    rw [← hdummy]
    exact henough

/-- The loop panics only when it has come to the last round, and that is over. -/
theorem roundEndLoop_panicked {start : BlockRound}
    {highest : Option (BlockHeader D)}
    (hhigh : ∀ h ∈ highest, h.round < BlockRound.MAX) :
    ∀ {left : ℕ} {v : RoundEnd D S}, v.curRound + left = BlockRound.MAX →
      Sound P v.db → (roundEndLoop start highest left v).Panicked →
      LastRoundOver P v.db := by
  intro left
  induction left with
  | zero =>
      intro v hleft hsound h
      have hcur : v.curRound = BlockRound.MAX := hleft
      unfold roundEndLoop at h
      rcases Outcome.bind_panicked.mp h with hturn | ⟨t, ht, hrest⟩
      · exact absurd hturn (roundEndTurn_not_panicked hsound)
      · have hcase := (roundEndTurn_cases ht).2
        cases hcase with
        | notarized b hb hle =>
            have := hhigh b hb
            lia
        | voted params p db o above hparams hp hvotes hdb =>
            rw [hsound.params_eq hparams, hcur] at hvotes
            rw [hcur] at hp
            exact Or.inl ⟨by rw [hp]; rfl, hvotes⟩
        | timedOut params above hparams hvotes =>
            rw [hsound.params_eq hparams, hcur] at hvotes
            exact Or.inr hvotes
        | settled => exact absurd hrest Outcome.not_panicked_pure
  | succ left ih =>
      intro v hleft hsound h
      unfold roundEndLoop at h
      rcases Outcome.bind_panicked.mp h with hturn | ⟨t, ht, hrest⟩
      · exact absurd hturn (roundEndTurn_not_panicked hsound)
      · cases t with
        | done b => exact absurd hrest Outcome.not_panicked_pure
        | next v' =>
            have hcase := (roundEndTurn_cases ht).2
            obtain ⟨hsound', hback⟩ := hcase.next_sound hsound
            have hsame := hcase.next_db.1
            have hleft' : v'.next.curRound + left = BlockRound.MAX := by
              show v'.curRound + 1 + left = BlockRound.MAX
              lia
            exact hback (ih (v := v'.next) hleft' hsound' hrest)

/-- In the last round, the loop panics as soon as the round is over. -/
theorem roundEndLoop_of_lastRoundOver {highest : Option (BlockHeader D)}
    {v : RoundEnd D S} (hcur : v.curRound = BlockRound.MAX) (hsound : Sound P v.db)
    (hover : LastRoundOver P v.db) :
    (roundEndLoop BlockRound.MAX highest 0 v).Panicked := by
  have hpin : checkPin v.db BlockRound.MAX v.curRound = .ok () := if_pos hcur.symm
  obtain ⟨t, ht⟩ := (hsound.ready v.curRound).turn_returns highest hpin
  have hcase := (roundEndTurn_cases ht).2
  unfold roundEndLoop
  rw [Outcome.bind_of_ok ht]
  cases hcase with
  | notarized | voted | timedOut => exact Outcome.panicked_crash
  | settled params b above hparams hlen hvotes hdummy =>
      rw [hsound.params_eq hparams, hcur] at hvotes hdummy
      rcases hover with ⟨hsome, henough⟩ | henough
      · exact absurd (hvotes hsome) (not_lt.mpr henough)
      · exact absurd hdummy (not_lt.mpr henough)

/-! ## The whole of `check_round_end` -/

/-- The check panics if the last round is over, and it is the current one. -/
theorem checkRoundEnd_panicked {c : Consensus D S} (hinv : BlockInv c.db)
    (hsound : Sound P c.db)
    (hover : LastRoundOver P c.db → c.db.getCurrentRound = BlockRound.MAX) :
    (c.checkRoundEnd c.db.getCurrentRound).Panicked ↔ LastRoundOver P c.db := by
  constructor
  · intro h
    have hpanic := h
    unfold checkRoundEnd at hpanic
    rcases Outcome.bind_panicked.mp hpanic with hloop | ⟨⟨v, b⟩, hloop, _⟩
    · refine roundEndLoop_panicked (fun b hb => ?_) ?_ hsound hloop
      · exact hinv.prev_lt hb
      · exact Nat.add_sub_cancel' hinv.cur_le
    · obtain ⟨hresult, hdone⟩ := roundEndLoop_ok hinv.round_eq
        (fun r p hp => (hinv.proposal r p hp).2.2) hinv.cur_le hloop
      have hready : TurnReady v.db v.curRound :=
        (hsound.ready v.curRound).congr hresult.notarizes.sameParams
          hresult.notarizes.proposals
      obtain ⟨c', hc'⟩ := checkRoundEnd_returns hloop hready fun l hl =>
        lt_of_lt_of_le (hresult.last_lt l hl) hresult.cur_le
      rw [hc'] at h
      exact absurd h Outcome.not_panicked_ok
  · intro h
    have hmax := hover h
    have hleft : BlockRound.MAX - c.db.getCurrentRound = 0 := by
      rw [hmax, Nat.sub_self]
    unfold checkRoundEnd
    rw [hleft, hmax]
    exact Outcome.bind_panicked.mpr (Or.inl
      (roundEndLoop_of_lastRoundOver rfl hsound h))

end Loop

end Consensus

end Bfte
