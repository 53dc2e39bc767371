import Bfte.Proofs.DummyRounds
import Bfte.Proofs.Records
import Bfte.Proofs.Starting

/-!
# What the history of the consensus tells

The history goes through four tables round by round. It is right about every block it shows:
the block is notarized, and whoever is said to have signed it has, and they are enough. Nobody
is left out either, since every vote there is has a peer.
-/

namespace Bfte

namespace Consensus

variable {D S : Type} [LinearOrder D] [Hashing D]

/-! ## The loop -/

omit [Hashing D] in
theorem historyFrom_returns {db : Db D S} {P : BlockRound → HistoryEntry D → Prop}
    (h : ∀ r, ∃ e, (historyEntry db r : Outcome Empty _) = .ok e ∧ P r e)
    (round : BlockRound) (n : ℕ) :
    ∃ history, (historyFrom db round n : Outcome Empty _) = .ok history ∧
      history.length = n ∧ ∀ (j : ℕ) e, history[j]? = some e → P (round + j) e := by
  induction n generalizing round with
  | zero => exact ⟨[], rfl, rfl, fun j e he => by simp at he⟩
  | succ n ih =>
      obtain ⟨e, he, hP⟩ := h round
      obtain ⟨rest, hrest, hlen, hall⟩ := ih (round + 1)
      refine ⟨e :: rest, ?_, by rw [List.length_cons, hlen], fun j e' hj => ?_⟩
      · rw [historyFrom, he]
        exact Outcome.bind_eq_ok.mpr ⟨e, rfl, Outcome.bind_eq_ok.mpr ⟨rest, hrest, rfl⟩⟩
      · cases j with
        | zero =>
            cases hj
            exact hP
        | succ j =>
            rw [Nat.add_comm j 1, ← Nat.add_assoc]
            exact hall j e' hj

/-- The rounds of the history are the current one and those before it. -/
theorem historyStart_spec {cur : BlockRound} {limit : ℕ} (hcur : cur ≤ BlockRound.MAX)
    (hlimit : limit = 0 → cur < BlockRound.MAX) :
    ∃ start, (historyStart cur limit : Outcome Empty _) = .ok start ∧
      cur + 1 - start = min limit (cur + 1) ∧ start + min limit (cur + 1) = cur + 1 := by
  unfold historyStart
  split
  · next hle =>
      have hfits (a b m : ℕ) (hba : b ≤ a) (ham : a ≤ m) (h0 : b = 0 → a < m) :
          a - b + 1 ≤ m ∧ a + 1 - (a - b + 1) = min b (a + 1) ∧
            a - b + 1 + min b (a + 1) = a + 1 := by
        omega
      obtain ⟨hmax, hcount, hend⟩ := hfits cur limit BlockRound.MAX hle hcur hlimit
      refine ⟨cur - limit + 1, ?_, hcount, hend⟩
      exact Outcome.bind_eq_ok.mpr ⟨(), Outcome.assertThat_eq_ok.mpr hmax, rfl⟩
  · next hlt =>
      have hall : min limit (cur + 1) = cur + 1 := min_eq_right (not_le.mp hlt)
      exact ⟨0, rfl, hall.symm, by rw [hall, Nat.zero_add]⟩

/-! ## Who has signed -/

section

variable {p : ConsensusParams D} {votes : List (PeerIdx × S)}

omit [LinearOrder D] [Hashing D] in
theorem mem_signatories {k : PeerPubkey} (h : k ∈ signatories p votes) :
    ∃ e ∈ votes, p.peers.items[e.1]? = some k := by
  obtain ⟨e, he, hk⟩ := List.mem_filterMap.mp h
  exact ⟨e, he, hk⟩

omit [LinearOrder D] [Hashing D] in
theorem length_signatories (h : ∀ e ∈ votes, (p.peers.items[e.1]?).isSome = true) :
    (signatories p votes).length = votes.length :=
  List.filterMap_length_eq_length.mpr h

omit [LinearOrder D] [Hashing D] in
theorem signatories_nodup (hitems : p.peers.items.Nodup)
    (hvotes : (votes.map Prod.fst).Nodup) : (signatories p votes).Nodup := by
  have heq : signatories p votes =
      (votes.map Prod.fst).filterMap fun i => p.peers.items[i]? := by
    rw [signatories, List.filterMap_map]
    rfl
  rw [heq]
  refine hvotes.filterMap fun i i' k hi hi' => ?_
  obtain ⟨hlt, -⟩ := List.getElem?_eq_some_iff.mp hi
  exact (List.getElem?_inj hlt hitems).mp (hi.trans hi'.symm)

end

/-! ## What is told of a round -/

variable [Signing D S]

/-- The entry is right about the round: about its block, that all signatories are peers of the
round, and that they are those who have voted for the block and are enough. -/
structure Truthful (db : Db D S) (r : BlockRound) (e : HistoryEntry D) : Prop where
  round : e.round = r
  block : e.block = db.getNotarizedBlock r
  peers : ∃ p, (db.getConsensusParams r : Outcome Empty _) = .ok p ∧
    (∀ k ∈ e.signatories, k ∈ p.peers.items) ∧
    ∀ b, e.block = some b →
      (NumPeers.mk p.peers.len).threshold ≤ e.signatories.length ∧
      e.signatories.length = db.getNumVotesProposal r ∧
      (∀ k ∈ e.signatories, ∃ sig : S,
        Signing.validKey D S k = true ∧ Signing.verify k sig (.header b : SignMsg D) = true) ∧
      (p.peers.items.Nodup → e.signatories.Nodup)

theorem historyEntry_truthful {db : Db D S} (hrec : RecordsInv db) (hstaffed : Staffed db)
    (r : BlockRound) :
    ∃ e, (historyEntry db r : Outcome Empty _) = .ok e ∧ Truthful db r e := by
  obtain ⟨p, hp, -⟩ := hstaffed.params r
  cases hblock : db.getNotarizedBlock r with
  | none =>
      refine ⟨⟨r, none, signatories p (db.getVotesDummy r)⟩, ?_, rfl, hblock.symm, p, hp,
        fun k hk => ?_, fun b hb => by cases hb⟩
      · rw [historyEntry, hblock]
        exact Outcome.bind_eq_ok.mpr ⟨p, hp, rfl⟩
      · obtain ⟨e, -, hk⟩ := mem_signatories hk
        exact List.mem_of_getElem? hk
  | some b =>
      obtain ⟨p', hrecorded⟩ := hrec.notarized r b hblock
      obtain rfl := Db.getConsensusParams_unique hp hrecorded.scheduled
      have hvote : ∀ e ∈ db.getVotesProposal r, SigOk p.peers (.header b) e.1 e.2 := by
        intro e he
        obtain ⟨⟨i, w⟩, hw, rfl⟩ := List.mem_map.mp he
        obtain ⟨rfl, hsig⟩ := hrecorded.votes i w (mem_votesAt.mp hw).1
        exact hsig
      have hlen : (signatories p (db.getVotesProposal r)).length =
          db.getNumVotesProposal r := by
        rw [length_signatories, Db.getVotesProposal, List.length_map, Db.getNumVotesProposal]
        intro e he
        obtain ⟨k, hk, -⟩ := hvote e he
        rw [hk]
        rfl
      refine ⟨⟨r, some b, signatories p (db.getVotesProposal r)⟩, ?_, rfl, hblock.symm, p, hp,
        fun k hk => ?_, fun b' hb => ?_⟩
      · rw [historyEntry, hblock]
        exact Outcome.bind_eq_ok.mpr ⟨p, hp, rfl⟩
      · obtain ⟨e, -, hk⟩ := mem_signatories hk
        exact List.mem_of_getElem? hk
      · cases hb
        refine ⟨hrecorded.enough.trans_eq hlen.symm, hlen, fun k hk => ?_, fun hitems => ?_⟩
        · obtain ⟨e, he, hk⟩ := mem_signatories hk
          obtain ⟨k', hk', hvalid, hver⟩ := hvote e he
          cases hk.symm.trans hk'
          exact ⟨e.2, hvalid, hver⟩
        · refine signatories_nodup hitems ?_
          rw [Db.getVotesProposal, List.map_map]
          exact votesAt_nodup _ _

/-! ## The history -/

omit [Signing D S] in
theorem init_staffed {params : ConsensusParams D} {k : Option PeerPubkey}
    {pinned : Option (BlockRound × D)} {c : Consensus D S}
    (h : init params Db.empty k pinned = .ok c) : Staffed c.db := by
  obtain ⟨hpos, hlen⟩ := init_returns_iff.mp ⟨c, h⟩
  refine Staffed.congr ⟨?_, fun r hash hr => ?_⟩ (init_sameParams h)
  · rw [insertConsensusParams_schedule, SortedTable.get?_insert_self]
    rfl
  · rw [insertConsensusParams_schedule] at hr
    rcases SortedTable.get?_insert_eq_some hr with ⟨_, rfl⟩ | hnone
    · exact ⟨params, SortedTable.get?_insert_self _ _ _, hlen, hpos⟩
    · cases hnone

variable [DecidableEq S]

theorem run_history [CollisionFree D] {params : ConsensusParams D} {k : Option PeerPubkey}
    {pinned : Option (BlockRound × D)} {c : Consensus D S} {ops : List (ConsensusOp D S)}
    (hinit : init params Db.empty k pinned = .ok c)
    (hops : Trail.Guarded step (fun c op => BelowLast c op ∧ ChangesFresh c op) c ops) :
    BoundedInv (c.run ops).db ∧ RecordsInv (c.run ops).db ∧ Staffed (c.run ops).db := by
  have hinv := Trail.Guarded.invariant
    (I := fun c : Consensus D S =>
      BoundedInv c.db ∧ ParamsInv c ∧ RecordsInv c.db ∧ Staffed c.db)
    (fun c op ⟨hbounded, hparams, hrec, hstaffed⟩ ⟨hlast, hfresh⟩ =>
      ⟨step_boundedInv c op hbounded hlast,
        step_paramsInv c op hbounded.toRoundInv hparams,
        step_recordsInv c op hlast hbounded hparams hrec,
        step_staffed c op hbounded.toRoundInv hstaffed hfresh⟩)
    ⟨(init_chainInv hinit).toBoundedInv, init_paramsInv hinit, init_recordsInv hinit,
      init_staffed hinit⟩ hops
  exact ⟨hinv.1, hinv.2.2⟩

/-- In every run, the history of the last rounds is there, however many are asked for (in the
last round, at least one): as many as there are, the current one first, and what it tells of
each is true. -/
theorem history_truthful [CollisionFree D] {params : ConsensusParams D}
    {k : Option PeerPubkey} {pinned : Option (BlockRound × D)} {c : Consensus D S}
    {ops : List (ConsensusOp D S)} (hinit : init params Db.empty k pinned = .ok c)
    (hops : Trail.Guarded step (fun c op => BelowLast c op ∧ ChangesFresh c op) c ops)
    (limit : ℕ) (hlimit : limit = 0 → (c.run ops).db.getCurrentRound < BlockRound.MAX) :
    ∃ history, (getConsensusHistory (c.run ops).db limit : Outcome Empty _) = .ok history ∧
      history.length = min limit ((c.run ops).db.getCurrentRound + 1) ∧
      ∀ (i : ℕ) e, history[i]? = some e →
        Truthful (c.run ops).db ((c.run ops).db.getCurrentRound - i) e := by
  obtain ⟨hbounded, hrec, hstaffed⟩ := run_history hinit hops
  generalize (c.run ops).db = db at hbounded hrec hstaffed hlimit
  obtain ⟨start, hstart, hn, hend⟩ := historyStart_spec hbounded.cur_le hlimit
  obtain ⟨history, hfrom, hlen, hall⟩ := historyFrom_returns
    (historyEntry_truthful hrec hstaffed) start
    (min limit (db.getCurrentRound + 1))
  refine ⟨history.reverse, ?_, by rw [List.length_reverse, hlen], fun i e he => ?_⟩
  · rw [← hn] at hfrom
    exact Outcome.bind_eq_ok.mpr ⟨start, hstart, Outcome.bind_eq_ok.mpr ⟨history, hfrom, rfl⟩⟩
  · have hi : i < history.length := by
      have hlt := (List.getElem?_eq_some_iff.mp he).1
      rwa [List.length_reverse] at hlt
    rw [List.getElem?_reverse hi, hlen] at he
    rw [hlen] at hi
    -- The rounds are counted from the other end.
    have hround (a m s : ℕ) (hi : i < m) (hs : s + m = a + 1) : s + (m - 1 - i) = a - i := by
      omega
    have htold := hall _ e he
    rwa [hround _ _ _ hi hend] at htold

/-- A round that two peers have signed, and the one after it. -/
theorem history_truthful_twoRounds : ∃ c : Consensus ListDigest PlainSig,
    init (plainParams [10, 11]) Db.empty (some 10) none = .ok c ∧
      ∃ history, (getConsensusHistory (c.run voteBeforeProposalOps).db 5 :
          Outcome Empty _) = .ok history ∧
        history.length = 2 ∧ ∀ (i : ℕ) e, history[i]? = some e →
          Truthful (c.run voteBeforeProposalOps).db
            ((c.run voteBeforeProposalOps).db.getCurrentRound - i) e := by
  have hrun : (init (plainParams [10, 11]) (Db.empty : Db ListDigest PlainSig)
      (some 10) none).Returns fun c =>
        Trail.Guarded step (fun c op => BelowLast c op ∧ ChangesFresh c op) c
            voteBeforeProposalOps ∧
          (c.run voteBeforeProposalOps).db.getCurrentRound = 1 := by
    decide +kernel
  obtain ⟨c, hinit, hops, hcur⟩ := Outcome.returns_iff.mp hrun
  obtain ⟨history, hhistory, hlen, hall⟩ := history_truthful hinit hops 5 nofun
  exact ⟨c, hinit, history, hhistory, hlen.trans (by rw [hcur]; rfl), hall⟩

end Consensus

end Bfte
