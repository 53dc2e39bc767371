import Bfte.Proofs.FinalityVotes

/-!
# How far the peers have finalized

The finality consensus is picked out of the sorted votes by its position. Read the
other way round it is a count: the greatest round that a threshold of the members
have voted for at least. A threshold outnumbers the faulty twice over, so even with
every vote of a faulty peer left out there are more than the faulty who got there.
-/

namespace Bfte

namespace Consensus

variable {D S : Type} [LinearOrder D]

/-- The round a peer has voted for, 0 if it has not voted. -/
def finalityVoteOf (db : Db D S) (k : PeerPubkey) : BlockRound :=
  (db.getFinalityVote k).getD 0

/-- The members that have voted for a round or a later one. -/
def votedFor (db : Db D S) (peers : PeerSet) (r : BlockRound) : Finset PeerPubkey :=
  peers.items.toFinset.filter fun k => r ≤ finalityVoteOf db k

theorem card_votedFor (db : Db D S) {peers : PeerSet} (h : peers.items.Nodup)
    (r : BlockRound) : (votedFor db peers r).card =
      (finalityVotes db peers).countP fun v => decide (r ≤ v) := by
  have hset : votedFor db peers r =
      (peers.items.filter fun k => decide (r ≤ finalityVoteOf db k)).toFinset := by
    ext k
    simp [votedFor]
  rw [hset, List.toFinset_card_of_nodup (h.filter _), ← List.countP_eq_length_filter,
    finalityVotes, List.countP_map]
  rfl

/-- The vote past the faulty ones is the greatest round a threshold has voted for. -/
theorem isGreatest_votedFor {db : Db D S} {peers : PeerSet} {F : BlockRound}
    (h : peers.items.Nodup) (hF : ((finalityVotes db peers).insertionSort (· ≤ ·))[
      (NumPeers.mk peers.len).maxFaulty]? = some F) :
    IsGreatest {r | (NumPeers.mk peers.len).threshold ≤ (votedFor db peers r).card}
      F := by
  have hlen : (finalityVotes db peers).length = peers.len := List.length_map _
  have hgreatest := OrderStat.isGreatest_kth (l := finalityVotes db peers) hF
  rw [hlen] at hgreatest
  simp only [card_votedFor db h]
  exact hgreatest

/-- Of a threshold of members, more than may be faulty are left without the faulty. -/
theorem maxFaulty_lt_card_sdiff {n : ℕ} (hn : 1 ≤ n)
    {voted faulty : Finset PeerPubkey}
    (hvoted : (NumPeers.mk n).threshold ≤ voted.card)
    (hfaulty : (voted ∩ faulty).card ≤ (NumPeers.mk n).maxFaulty) :
    (NumPeers.mk n).maxFaulty + 1 ≤ (voted \ faulty).card := by
  have hsplit := Finset.card_sdiff_add_card_inter voted faulty
  have htotal := NumPeers.total_add_maxFaulty_lt (n := ⟨n⟩) hn
  have hsum : (NumPeers.mk n).threshold + (NumPeers.mk n).maxFaulty = n := by
    unfold NumPeers.threshold NumPeers.maxFaulty
    show n - (n - 1) / 3 + (n - 1) / 3 = n
    omega
  have htotal' : n + (NumPeers.mk n).maxFaulty < 2 * (NumPeers.mk n).threshold :=
    htotal
  omega

/-- A recount stores the vote past the faulty ones. -/
theorem recalculateFinalityConsensusTx_stores {ε : Type} {c c' : Consensus D S}
    {r : BlockRound} {params : ConsensusParams D} {F : BlockRound}
    (hparams : (c.db.getConsensusParams r : Outcome ε _) = .ok params)
    (hF : ((finalityVotes c.db params.peers).insertionSort (· ≤ ·))[
      (NumPeers.mk params.peers.len).maxFaulty]? = some F)
    (h : (c.recalculateFinalityConsensusTx r : Outcome ε _) = .ok c') :
    c'.db.getFinalityConsensus = some F := by
  simp only [recalculateFinalityConsensusTx, Outcome.bind_eq_ok,
    ConsensusParams.numPeers_eq_ok, Outcome.expect_eq_ok] at h
  obtain ⟨params', hparams', _, ⟨_, rfl⟩, computed, hcomputed, h⟩ := h
  obtain rfl : params' = params := Except.ok.inj (hparams'.symm.trans hparams)
  obtain rfl : computed = F := Option.some.inj (hcomputed.symm.trans hF)
  generalize (if computed < c.db.getFinalityConsensus.getD 0
    then c.db.getFinalityConsensus.getD 0 else computed) = shown at h
  split at h
  · cases h
    rfl
  · cases h
    rfl

/-- The value computed from the sorted votes is the greatest round that a threshold of
the members have voted for; it is what a recount stores; and if no more members are
faulty than may be, more than that many others have voted for it. -/
theorem finality_is_greatest {ε : Type} (c : Consensus D S) (curRound : BlockRound)
    (params : ConsensusParams D)
    (hparams : (c.db.getConsensusParams curRound : Outcome ε _) = .ok params)
    (hdistinct : params.peers.items.Nodup) (hmanned : 1 ≤ params.peers.len) :
    ∃ F, ((finalityVotes c.db params.peers).insertionSort (· ≤ ·))[
        (NumPeers.mk params.peers.len).maxFaulty]? = some F ∧
      IsGreatest {r | (NumPeers.mk params.peers.len).threshold ≤
        (votedFor c.db params.peers r).card} F ∧
      (∀ faulty : Finset PeerPubkey,
        (params.peers.items.toFinset ∩ faulty).card ≤
            (NumPeers.mk params.peers.len).maxFaulty →
          (NumPeers.mk params.peers.len).maxFaulty + 1 ≤
            (votedFor c.db params.peers F \ faulty).card) ∧
      (params.peers.len ≤ 255 → ∃ c',
        (c.recalculateFinalityConsensusTx curRound : Outcome ε _) = .ok c') ∧
      ∀ c', (c.recalculateFinalityConsensusTx curRound : Outcome ε _) = .ok c' →
        c'.db.getFinalityConsensus = some F := by
  have hlen : (finalityVotes c.db params.peers).length = params.peers.len :=
    List.length_map _
  have hin : (NumPeers.mk params.peers.len).maxFaulty <
      (finalityVotes c.db params.peers).length := by
    rw [hlen]
    show (params.peers.len - 1) / 3 < params.peers.len
    omega
  obtain ⟨F, hF⟩ := OrderStat.exists_kth hin
  have hgreatest := isGreatest_votedFor hdistinct hF
  refine ⟨F, hF, hgreatest, fun faulty hfew => ?_, fun hsize => ?_, fun c' h => ?_⟩
  · refine maxFaulty_lt_card_sdiff hmanned hgreatest.1 (le_trans ?_ hfew)
    exact Finset.card_le_card
      (Finset.inter_subset_inter_right (Finset.filter_subset _ _))
  · exact recalculateFinalityConsensusTx_returns hparams hsize (by omega)
  · exact recalculateFinalityConsensusTx_stores hparams hF h

/-- Four peers of whom one has not voted: three are at 5 or beyond. -/
def fourVotes : Consensus ListDigest PlainSig where
  db := { (Db.empty : Db ListDigest PlainSig) with
    consFinalityVotes := .ofList [(10, 5), (11, 9), (13, 7)]
    consParamsSchedule := .ofList [(0, Hashing.paramsHash (plainParams [10, 11, 12, 13]))]
    consParams := .ofList [(Hashing.paramsHash (plainParams [10, 11, 12, 13]),
      plainParams [10, 11, 12, 13])] }
  ourPeerPubkey := none
  currentRoundWithTimeout := (0, false)
  finalityConsensus := 0
  finalitySelfVote := 0
  trace := .empty

theorem finality_of_fourVotes :
    ((fourVotes.recalculateFinalityConsensusTx 0 : Outcome Empty _).Returns fun c =>
      c.db.getFinalityConsensus = some 5) ∧
    IsGreatest {r | 3 ≤ (votedFor fourVotes.db ⟨[10, 11, 12, 13]⟩ r).card} 5 := by
  have hsorted : ((finalityVotes fourVotes.db ⟨[10, 11, 12, 13]⟩).insertionSort
      (· ≤ ·))[1]? = some 5 := by decide +kernel
  obtain ⟨F, hF, hgreatest, _⟩ := finality_is_greatest (ε := Empty) fourVotes 0
    (plainParams [10, 11, 12, 13]) (by rfl) (by decide) (by decide)
  obtain rfl : F = 5 := Option.some.inj (hF.symm.trans hsorted)
  exact ⟨by decide +kernel, hgreatest⟩

end Consensus

end Bfte
