import Bfte.Proofs.MetaVotes

/-!
# What an approval is taken for

A node approves a vote that it wants to cast itself, but its citem names the voter
and not the value. What the node's vote is taken for is looked up when the citem is
processed, and by then the voter may have voted for something else. So in a store that
lets a table be opened twice, the approval means what it meant exactly as long as the
vote it names still stands, or is gone.

The store of the node is exclusive. There the lookup holds the table that the vote is
to be written to, so an approval that finds a vote is neither rejected nor recorded.
-/

namespace Bfte

namespace MetaDb

/-- What a vote leaves on record for the voter: the vote, or the decision that it
completed. -/
def Recorded (db : MetaDb) (effects : List KeyValueConsensusEffect)
    (key : MetaKey) (voter : PeerPubkey) (value : MetaValue) : Prop :=
  db.keyValueVotes.get? (toLex (key, voter)) = some value ∨ ⟨key, value⟩ ∈ effects

instance (db : MetaDb) (effects : List KeyValueConsensusEffect) (key : MetaKey)
    (voter : PeerPubkey) (value : MetaValue) :
    Decidable (db.Recorded effects key voter value) := by
  unfold Recorded
  infer_instance

/-- A vote is recorded for its value and for no other. -/
theorem VoteCase.recorded_iff {db db' : MetaDb} {voter : PeerPubkey}
    {peerSet : PeerSet} {key : MetaKey} {cast value : MetaValue}
    {effects : List KeyValueConsensusEffect}
    (h : VoteCase db voter peerSet key cast db' effects)
    (hmember : peerSet.contains voter = true) :
    db'.Recorded effects key voter value ↔ cast = value := by
  cases h with
  | repeated hsame => simp [Recorded, hsame]
  | recorded _ hnew hsize hdb hfew =>
      rw [Recorded, hdb, SortedTable.get?_insert_self]
      simp
  | decided db₁ hnew hsize hvotes hvalues hpending henough =>
      have hgone : (db₁.clearVotes peerSet key).keyValueVotes.get?
          (toLex (key, voter)) = none := by
        rw [get?_clearVotes, if_pos ⟨rfl, hmember⟩]
      rw [Recorded, hgone]
      simp [eq_comm]

/-- If tables open, a vote fails only for the number of peers. -/
theorem vote_ok_iff {live : List MetaTable} {db : MetaDb} {voter : PeerPubkey}
    {peerSet : PeerSet} {key : MetaKey} {value : MetaValue} :
    (∃ r, db.processCitemVoteKeyValue false live voter peerSet key value = .ok r) ↔
      peerSet.len ≤ 255 ∨
        db.keyValueVotes.get? (toLex (key, voter)) = some value := by
  rw [processCitemVoteKeyValue, Outcome.bind_of_ok (openTable_false _ _)]
  split
  · next hsame => exact iff_of_true ⟨_, rfl⟩ (Or.inr hsame)
  · next hnew =>
      rw [or_iff_left hnew]
      constructor
      · rintro ⟨_, h⟩
        obtain ⟨_, hn, _⟩ := Outcome.bind_eq_ok.mp h
        exact (toNumPeers_eq_ok.mp hn).1
      · intro hsize
        rw [Outcome.bind_of_ok (toNumPeers_of_le hsize)]
        split
        · rw [Outcome.bind_of_ok (openTable_false _ _),
            Outcome.bind_of_ok (openTable_false _ _)]
          exact ⟨_, rfl⟩
        · exact ⟨_, rfl⟩

theorem vote_not_failed {live : List MetaTable} {db : MetaDb} {voter : PeerPubkey}
    {peerSet : PeerSet} {key : MetaKey} {value : MetaValue} :
    ¬ (db.processCitemVoteKeyValue false live voter peerSet key value).Failed := by
  rw [processCitemVoteKeyValue, Outcome.bind_of_ok (openTable_false _ _)]
  split
  · exact Outcome.not_failed_pure
  · rw [Outcome.bind_failed]
    rintro (h | ⟨_, _, h⟩)
    · unfold toNumPeers at h
      split at h
      · exact Outcome.not_failed_ok h
      · exact Outcome.not_failed_crash h
    · split at h
      · rw [Outcome.bind_of_ok (openTable_false _ _),
          Outcome.bind_of_ok (openTable_false _ _)] at h
        exact Outcome.not_failed_pure h
      · exact Outcome.not_failed_pure h

end MetaDb

namespace MetaModule

/-- The node asks its peers to take over the vote of a peer, to have its own pending
value. -/
structure Issues (m : MetaModule) (voter : PeerPubkey) (key : MetaKey)
    (approvedPeer : PeerPubkey) (value : MetaValue) : Prop where
  isVoter : m.peerPubkey = some voter
  pending : m.db.pendingProposals.get? key = some value
  proposed : .approveVote key approvedPeer ∈ m.refreshConsensusProposals

theorem proposal_eq_approveVote {m : MetaModule} {key k : MetaKey}
    {value : MetaValue} {approvedPeer : PeerPubkey}
    (h : m.proposal key value = some (.approveVote k approvedPeer)) :
    key = k ∧
      m.db.keyValueVotes.get? (toLex (key, approvedPeer)) = some value := by
  obtain ⟨_, h⟩ := Option.ite_none_right_eq_some.mp h
  split at h
  · next matchingPeer vote hfind =>
      cases h
      have hvote := MetaDb.mem_votesForKey.mp (List.mem_of_find?_eq_some hfind)
      have hsame : vote = value := by
        simpa using List.find?_some hfind
      rw [hvote, hsame]
      exact ⟨rfl, rfl⟩
  · cases h

/-- What is approved is the pending value. -/
theorem Issues.approves {m : MetaModule} {voter approvedPeer : PeerPubkey}
    {key : MetaKey} {value : MetaValue}
    (h : m.Issues voter key approvedPeer value) :
    m.db.keyValueVotes.get? (toLex (key, approvedPeer)) = some value := by
  obtain ⟨⟨k, pending⟩, hpending, hcitem⟩ := List.mem_filterMap.mp h.proposed
  obtain ⟨rfl, hvote⟩ := proposal_eq_approveVote hcitem
  have hvalue := (SortedTable.mem_entries.mp hpending).symm.trans h.pending
  rw [hvote, Option.some.inj hvalue]

/-- The citem was rejected, or leaves a value on record for its sender. -/
def RejectedOrRecorded
    (x : Outcome DbTxError (MetaModule × List KeyValueConsensusEffect))
    (key : MetaKey) (voter : PeerPubkey) (value : MetaValue) : Prop :=
  (∃ source, x = .error (.err (.txError source))) ∨
    x.Returns fun r => r.1.db.Recorded r.2 key voter value

/-- With tables that open, an approval is a vote for the value of the vote it
names. -/
theorem processCitem_approve {m : MetaModule} {voter approvedPeer : PeerPubkey}
    {peerSet : PeerSet} {key : MetaKey} {cast : MetaValue}
    (hmember : peerSet.contains voter = true)
    (hvote : m.db.keyValueVotes.get? (toLex (key, approvedPeer)) = some cast) :
    m.processCitem false voter peerSet (some (.approveVote key approvedPeer)) =
      (m.db.processCitemVoteKeyValue false [.keyValueVotes] voter peerSet key
        cast) >>= fun r =>
          let m := { m with db := r.1 }
          .ok ({ m with proposeCitems := m.refreshConsensusProposals }, r.2) := by
  rw [processCitem, Outcome.bind_of_ok (Outcome.assertThat_of hmember)]
  dsimp only [MetaDb.applyCitem, MetaDb.processCitemApproveVote]
  rw [Outcome.bind_of_ok (openTable_false _ _), hvote]
  rfl

theorem processCitem_approve_none {exclusive : Bool} {m : MetaModule}
    {voter approvedPeer : PeerPubkey} {peerSet : PeerSet} {key : MetaKey}
    (hmember : peerSet.contains voter = true)
    (hvote : m.db.keyValueVotes.get? (toLex (key, approvedPeer)) = none) :
    m.processCitem exclusive voter peerSet
      (some (.approveVote key approvedPeer)) =
      .error (.err (.txError "Invalid peer_pubkey")) := by
  rw [processCitem, Outcome.bind_of_ok (Outcome.assertThat_of hmember)]
  dsimp only [MetaDb.applyCitem, MetaDb.processCitemApproveVote]
  rw [Outcome.bind_of_ok (openTable_eq_ok.mpr ⟨fun _ => List.not_mem_nil, rfl⟩),
    hvote]
  rfl

theorem processCitem_approve_exclusive {m : MetaModule}
    {voter approvedPeer : PeerPubkey} {peerSet : PeerSet} {key : MetaKey}
    {cast : MetaValue} (hmember : peerSet.contains voter = true)
    (hvote : m.db.keyValueVotes.get? (toLex (key, approvedPeer)) = some cast) :
    m.processCitem true voter peerSet (some (.approveVote key approvedPeer)) =
      .error (.err (.tableAlreadyOpen .keyValueVotes)) := by
  rw [processCitem, Outcome.bind_of_ok (Outcome.assertThat_of hmember)]
  dsimp only [MetaDb.applyCitem, MetaDb.processCitemApproveVote]
  rw [Outcome.bind_of_ok (openTable_eq_ok.mpr ⟨fun _ => List.not_mem_nil, rfl⟩),
    hvote]
  rfl

/-- What has become of the vote that an approval names, if the approval is still to
mean what it meant: it is gone, or it stands and tables open, and the peers can be
counted or need not be. -/
def StillMeant (exclusive : Bool) (m : MetaModule) (peerSet : PeerSet)
    (key : MetaKey) (voter approvedPeer : PeerPubkey) (value : MetaValue) : Prop :=
  m.db.keyValueVotes.get? (toLex (key, approvedPeer)) = none ∨
    exclusive = false ∧
      m.db.keyValueVotes.get? (toLex (key, approvedPeer)) = some value ∧
      (peerSet.len ≤ 255 ∨
        m.db.keyValueVotes.get? (toLex (key, voter)) = some value)

instance (exclusive : Bool) (m : MetaModule) (peerSet : PeerSet) (key : MetaKey)
    (voter approvedPeer : PeerPubkey) (value : MetaValue) :
    Decidable (m.StillMeant exclusive peerSet key voter approvedPeer value) := by
  unfold StillMeant
  infer_instance

theorem rejectedOrRecorded_iff {exclusive : Bool} {m : MetaModule}
    {voter approvedPeer : PeerPubkey} {peerSet : PeerSet} {key : MetaKey}
    {value : MetaValue} (hmember : peerSet.contains voter = true) :
    RejectedOrRecorded (m.processCitem exclusive voter peerSet
      (some (.approveVote key approvedPeer))) key voter value ↔
      m.StillMeant exclusive peerSet key voter approvedPeer value := by
  cases hvote : m.db.keyValueVotes.get? (toLex (key, approvedPeer)) with
  | none =>
      rw [processCitem_approve_none hmember hvote]
      exact iff_of_true (Or.inl ⟨_, rfl⟩) (Or.inl hvote)
  | some cast =>
      cases exclusive with
      | true =>
          rw [processCitem_approve_exclusive hmember hvote]
          refine iff_of_false ?_ ?_
          · rintro (⟨_, h⟩ | h)
            · cases h
            · exact h
          · rintro (h | ⟨h, _⟩)
            · rw [hvote] at h
              cases h
            · cases h
      | false =>
          have hmeant : m.StillMeant false peerSet key voter approvedPeer value ↔
              cast = value ∧ ∃ r, m.db.processCitemVoteKeyValue false
                [.keyValueVotes] voter peerSet key cast = .ok r := by
            rw [StillMeant, hvote, MetaDb.vote_ok_iff]
            simp only [reduceCtorEq, false_or, true_and, Option.some.injEq]
            exact and_congr_right fun heq => by rw [heq]
          rw [processCitem_approve hmember hvote, hmeant]
          cases hcast : m.db.processCitemVoteKeyValue false [.keyValueVotes] voter
              peerSet key cast with
          | ok r =>
              have hcase := MetaDb.processCitemVoteKeyValue_cases hcast
              rw [and_iff_left ⟨r, rfl⟩, ← hcase.recorded_iff hmember]
              refine or_iff_right ?_
              rintro ⟨_, h⟩
              cases h
          | error fault =>
              refine iff_of_false ?_ ?_
              · rintro (⟨source, h⟩ | h)
                · injection h with h
                  exact MetaDb.vote_not_failed ⟨_, hcast.trans (by rw [h])⟩
                · exact h
              · rintro ⟨_, _, h⟩
                cases h

/-- In an exclusive store nothing but a vote that is gone leaves an approval its
meaning. -/
theorem stillMeant_exclusive {m : MetaModule} {peerSet : PeerSet} {key : MetaKey}
    {voter approvedPeer : PeerPubkey} {value : MetaValue} :
    m.StillMeant true peerSet key voter approvedPeer value ↔
      m.db.keyValueVotes.get? (toLex (key, approvedPeer)) = none := by
  refine or_iff_left ?_
  rintro ⟨h, _⟩
  cases h

variable {E : Type}

/-- Whatever has happened since it was issued, an approval is rejected or recorded for
the value that it was issued for just if the vote it names is gone. Any other vote is
looked up in a table that is still open when the approval is to be written to it. -/
theorem approval_recorded_iff (m : MetaModule) (key : MetaKey)
    (voter approvedPeer : PeerPubkey) (value : MetaValue)
    (hissued : m.Issues voter key approvedPeer value) (ops : List (MetaOp E))
    (peerSet : PeerSet) (hmember : peerSet.contains voter = true) :
    m.db.keyValueVotes.get? (toLex (key, approvedPeer)) = some value ∧
      (RejectedOrRecorded ((m.run true ops).processCitem true voter peerSet
          (some (.approveVote key approvedPeer))) key voter value ↔
        (m.run true ops).db.keyValueVotes.get? (toLex (key, approvedPeer)) = none) :=
  ⟨hissued.approves, (rejectedOrRecorded_iff hmember).trans stillMeant_exclusive⟩

/-- Node 2 of four wants a value that node 1 has voted for. -/
def wanting : MetaModule :=
  ((start (some 2)).proposeKeyValue 0 [7]).run (E := Empty) true
    [.processCitem 1 ⟨[1, 2, 3, 4]⟩ (some (.proposeValue 0 [7]))]

theorem wanting_issues : wanting.Issues 2 0 1 [7] where
  isVoter := by decide +kernel
  pending := by decide +kernel
  proposed := by decide +kernel

/-- Before the approval is processed nodes 3 and 4 vote for the value too. That decides
the key, and the vote that was to be approved is cleared. -/
theorem approval_rejected_of_decided :
    RejectedOrRecorded ((wanting.run (E := Empty) true
        [.processCitem 3 ⟨[1, 2, 3, 4]⟩ (some (.proposeValue 0 [7])),
          .processCitem 4 ⟨[1, 2, 3, 4]⟩ (some (.proposeValue 0 [7]))]).processCitem
            true 2 ⟨[1, 2, 3, 4]⟩ (some (.approveVote 0 1))) 0 2 [7] :=
  (approval_recorded_iff wanting 0 2 1 [7] wanting_issues _ ⟨[1, 2, 3, 4]⟩
    (by decide)).2.mpr (by decide +kernel)

/-- The approval is the next citem to be processed, and the table of votes is opened
twice. -/
theorem approval_opens_twice :
    wanting.Issues 2 0 1 [7] ∧
      ¬ RejectedOrRecorded ((wanting.run (E := Empty) true []).processCitem true 2
        ⟨[1, 2, 3, 4]⟩ (some (.approveVote 0 1))) 0 2 [7] := by
  refine ⟨wanting_issues, fun h => ?_⟩
  have hmeant := (rejectedOrRecorded_iff (by decide)).mp h
  revert hmeant
  decide +kernel

end MetaModule

end Bfte
