import Bfte.Proofs.Params
import Bfte.Proofs.Resume

/-!
# The schedule of the params

A change of the peer set is scheduled for a round computed from the round the app
asked for and from the number of peers that vote there. If nothing is scheduled
for that round or a later one, the new params become the last ones and are stored
under the hash in the schedule. If the round is taken, the hash in the schedule
is replaced, and the new params are not stored.
-/

namespace Bfte

open Consensus

namespace CtrlDb

/-- The peer set a module reads has exactly the peers of the table. -/
theorem contains_getPeerSet {db : CtrlDb} {k : PeerPubkey} :
    db.getPeerSet.contains k = true ↔ (db.peers.get? k).isSome = true := by
  have hmem : k ∈ db.getPeerSet.items ↔ ∃ v, (k, v) ∈ db.peers.entries := by
    rw [getPeerSet, PeerSet.ofList, List.mem_insertionSort, List.mem_map]
    constructor
    · rintro ⟨e, he, rfl⟩
      exact ⟨e.2, he⟩
    · rintro ⟨v, hv⟩
      exact ⟨(k, v), hv, rfl⟩
  rw [PeerSet.contains, decide_eq_true_iff, hmem, Option.isSome_iff_exists]
  exact exists_congr fun v => SortedTable.mem_entries

theorem get?_foldl_insert {l : List PeerPubkey} {t : SortedTable PeerPubkey Unit}
    {k : PeerPubkey} :
    ((l.foldl (fun t k => t.insert k ()) t).get? k).isSome = true ↔
      k ∈ l ∨ (t.get? k).isSome = true := by
  induction l generalizing t with
  | nil => simp
  | cons k' l ih =>
      rw [List.foldl_cons, ih, SortedTable.get?_insert, List.mem_cons]
      by_cases hk : k = k'
      · simp [hk]
      · simp [hk]

theorem bootstrap_peers {id : ModuleId} {version : ConsensusVersion}
    {peerSet : PeerSet} {k : PeerPubkey} :
    ((empty.bootstrapConsensus id version peerSet).peers.get? k).isSome = true ↔
      peerSet.contains k = true := by
  rw [PeerSet.contains, decide_eq_true_iff]
  refine (get?_foldl_insert (t := SortedTable.empty)).trans ?_
  simp

end CtrlDb

namespace NodeApp

variable {D S M X : Type} [LinearOrder D] [Hashing D]

/-- The params in the schedule are stored, and the last of them are for the peers
that `consensus-ctrl` has now. -/
structure ScheduleIntact (db : Db D S) (ctrl : CtrlDb) : Prop where
  stored : ∀ r h, db.consParamsSchedule.get? r = some h →
    ∃ p, db.consParams.get? h = some p ∧ Hashing.paramsHash p = h
  latest : ∃ r h p, db.consParamsSchedule.entries.getLast? = some (r, h) ∧
    db.consParams.get? h = some p ∧
    ∀ k, p.peers.contains k = true ↔ (ctrl.peers.get? k).isSome = true

variable {db db' : Db D S} {ctrl ctrl' : CtrlDb}

theorem ScheduleIntact.congr (h : ScheduleIntact db ctrl) (hdb : SameParams db db')
    (hctrl : ∀ k, (ctrl'.peers.get? k).isSome = true ↔
      (ctrl.peers.get? k).isSome = true) : ScheduleIntact db' ctrl' where
  stored := by
    rw [hdb.schedule, hdb.params]
    exact h.stored
  latest := by
    rw [hdb.schedule, hdb.params]
    obtain ⟨r, hash, p, hlast, hp, hpeers⟩ := h.latest
    exact ⟨r, hash, p, hlast, hp, fun k => (hpeers k).trans (hctrl k).symm⟩

/-- Looking params up in an intact schedule does not panic. -/
theorem ScheduleIntact.not_panicked {ε : Type} (h : ScheduleIntact db ctrl)
    (r : BlockRound) : ¬ (db.getConsensusParamsOpt r : Outcome ε _).Panicked := by
  unfold Db.getConsensusParamsOpt
  split
  · exact Outcome.not_panicked_ok
  · next r' hash hlast =>
    obtain ⟨p, hp, _⟩ := h.stored r' hash (SortedTable.lastUpTo_eq_some.mp hlast).1
    rw [Outcome.bind_panicked, hp]
    simp

/-- New params for a round after all scheduled ones. -/
theorem scheduleIntact_insert
    (hstored : ∀ r h, db.consParamsSchedule.get? r = some h →
      ∃ p, db.consParams.get? h = some p ∧ Hashing.paramsHash p = h)
    {r : BlockRound} {new : ConsensusParams D}
    (hr : ∀ e ∈ db.consParamsSchedule.entries, e.1 < r)
    (hpeers : ∀ k, new.peers.contains k = true ↔
      (ctrl'.peers.get? k).isSome = true) :
    ScheduleIntact (db.insertConsensusParams r new).1 ctrl' := by
  have hfree : db.consParamsSchedule.get? r = none := by
    rw [SortedTable.get?_eq_none]
    intro hash hmem
    exact absurd (hr _ hmem) (lt_irrefl r)
  have hdb : (db.insertConsensusParams r new).1 = { db with
      consParamsSchedule := db.consParamsSchedule.insert r (Hashing.paramsHash new)
      consParams := db.consParams.insert (Hashing.paramsHash new) new } := by
    simp only [Db.insertConsensusParams, hfree]
  rw [hdb]
  refine ⟨fun r' hash hget => ?_, r, Hashing.paramsHash new, new, ?_, ?_, hpeers⟩
  · dsimp only at hget ⊢
    rw [SortedTable.get?_insert] at hget ⊢
    by_cases hhash : hash = Hashing.paramsHash new
    · rw [if_pos hhash]
      exact ⟨new, rfl, hhash.symm⟩
    · rw [if_neg hhash]
      split at hget
      · cases hget
        exact absurd rfl hhash
      · exact hstored r' hash hget
  · show (SortedTable.insertEntry r _ db.consParamsSchedule.entries).getLast? = _
    rw [SortedTable.insertEntry_of_lt hr, List.getLast?_concat]
  · exact SortedTable.get?_insert_self _ _ _

/-! ## Runs of the app -/

section Runs

variable {E : Type} [OtherModules M X E] {inits : ModulesInits}
  {blocks : List (FinalizedBlock D X)} {n n' : NodeApp D S M X}

/-- A change of the peer set by the item at hand gets an apply round after every
scheduled one. -/
def FreshApplyRound (E : Type) [OtherModules M X E] (inits : ModulesInits)
    (n : NodeApp D S M X) : AppOp D S → Prop
  | .next => ∀ bk ∈ n.block, ∀ citem ∈ bk.1.citems[bk.2]?,
      n.curRoundIdx.2 ≤ bk.2 →
      (itemOutcome E inits n.modules bk.1 citem).WhenOk fun r =>
        paramsChanges r.2 ≠ [] →
        (n.consensus.db.getConsensusParams n.curRoundIdx.1 :
          Outcome Empty _).WhenOk fun p =>
            ∀ e ∈ n.consensus.db.consParamsSchedule.entries,
              e.1 < n.curRoundIdx.1 + (p.peers.len +
                ConsensusParams.coreApplyDelayBase)
  | _ => True

instance (n : NodeApp D S M X) :
    ∀ op : AppOp D S, Decidable (FreshApplyRound E inits n op)
  | .next => inferInstanceAs (Decidable (∀ bk ∈ _, ∀ citem ∈ _, _))
  | .restart => .isTrue trivial
  | .recvVote _ _ => .isTrue trivial
  | .recvNotarized _ => .isTrue trivial
  | .recvFinality _ _ => .isTrue trivial

/-- What is kept by every step. -/
structure ScheduleInv (n : NodeApp D S M X) : Prop where
  round : RoundInv n.consensus.db
  coherent : n.Coherent
  intact : ScheduleIntact n.consensus.db n.modules.ctrl

/-- The consensus schedules what an item decided. -/
theorem ScheduleInv.applied {b : FinalizedBlock D X} {citem : CItem X}
    {m : Modules M} {effects : List (ModuleCItemEffect E)} {c : Consensus D S}
    (h : ScheduleInv n)
    (hout : itemOutcome E inits n.modules b citem = .ok (m, effects))
    (hpre : processConsensusChangeEffectsCorePre n.curRoundIdx.1 b.header.timestamp
      n.consensus effects = (.ok c : Outcome ProcessCItemError _))
    (hfresh : paramsChanges effects ≠ [] →
      (n.consensus.db.getConsensusParams n.curRoundIdx.1 :
        Outcome Empty _).WhenOk fun p =>
          ∀ e ∈ n.consensus.db.consParamsSchedule.entries,
            e.1 < n.curRoundIdx.1 + (p.peers.len +
              ConsensusParams.coreApplyDelayBase)) :
    RoundInv c.db ∧ ScheduleIntact c.db m.ctrl := by
  have htold := (processModules_told hout).peers
  have hsingle := paramsChanges_item hout
  rw [peerSetAfter_eq] at htold
  rw [corePre_eq] at hpre
  cases hchanges : paramsChanges effects with
  | nil =>
      rw [hchanges] at htold hpre
      cases hpre
      refine ⟨h.round, h.intact.congr (.refl _) fun k => ?_⟩
      rw [← CtrlDb.contains_getPeerSet, ← CtrlDb.contains_getPeerSet]
      exact iff_of_eq (congrArg (fun s => PeerSet.contains s k = true) htold.symm)
  | cons s l =>
      obtain rfl : l = [] := by
        rw [hchanges] at hsingle
        exact List.eq_nil_of_length_eq_zero (Nat.le_zero.mp
          (Nat.le_of_succ_le_succ hsingle))
      rw [hchanges] at htold hpre
      simp only [List.foldlM_cons, List.foldlM_nil, Outcome.bind_eq_ok,
        Outcome.pure_eq_ok] at hpre
      obtain ⟨c', hchange, rfl⟩ := hpre
      obtain ⟨cur, new, hcur, hnew, _, rfl⟩ := consensusParamsChangeTx_ok hchange
      have habove := Outcome.whenOk_iff.mp (hfresh (by rw [hchanges]; simp)) cur
        (Db.getConsensusParams_cast hcur)
      simp only [ConsensusParams.makeChange, ConsensusParams.schedulingDelay,
        Outcome.bind_eq_ok, ConsensusParams.numPeers_eq_ok, Outcome.pure_eq_ok]
        at hnew
      obtain ⟨delay, ⟨num, ⟨_, rfl⟩, rfl⟩, _, _, rfl⟩ := hnew
      refine ⟨h.round.congr (insertConsensusParams_sameBlocks _ _ _),
        scheduleIntact_insert h.intact.stored habove fun k => ?_⟩
      rw [← CtrlDb.contains_getPeerSet]
      exact iff_of_eq (congrArg (fun s => PeerSet.contains s k = true) htold)

theorem next_scheduleInv (h : ScheduleInv n)
    (hop : FreshApplyRound E inits n (.next : AppOp D S)) :
    ScheduleInv (n.next E inits blocks) := by
  obtain ⟨hcase, hc⟩ := next_spec E inits blocks h.coherent
  generalize n.next E inits blocks = n' at hcase hc
  cases hcase with
  | idle _ hn =>
      subst hn
      exact h
  | opened _ _ _ hn =>
      subst hn
      exact ⟨h.round, hc, h.intact⟩
  | finished _ _ _ _ hn =>
      subst hn
      exact ⟨h.round, hc, h.intact⟩
  | turned b k citem hblock hcitem hturn =>
      cases hturn with
      | skipped _ hn =>
          subst hn
          exact ⟨h.round, hc, h.intact⟩
      | applied hle hout hpre hn =>
          have hwhen := Outcome.whenOk_iff.mp
            (hop (b, k) hblock citem hcitem hle) _ hout
          obtain ⟨hround, hintact⟩ := h.applied hout hpre hwhen
          subst hn
          exact ⟨hround, hc, hintact⟩
      | failed _ _ hn =>
          subst hn
          exact ⟨h.round, hc, h.intact⟩
      | stuck _ hn =>
          subst hn
          exact ⟨h.round, hc, h.intact⟩

variable [DecidableEq S] [Signing D S]

/-- Messages and restarts do not touch the params. -/
theorem ScheduleInv.consensus (h : ScheduleInv n) (op : ConsensusOp D S)
    (hop : ∀ r t s, op ≠ .paramsChange r t s) :
    RoundInv (n.consensus.step op).db ∧
      ScheduleIntact (n.consensus.step op).db n.modules.ctrl :=
  ⟨step_roundInv _ _ h.round,
    h.intact.congr (step_sameParams _ _ h.round hop) fun _ => Iff.rfl⟩

theorem step_scheduleInv {op : AppOp D S} (h : ScheduleInv n)
    (hop : FreshApplyRound E inits n op) :
    ScheduleInv (step E inits blocks n op) := by
  cases op with
  | next => exact next_scheduleInv h hop
  | restart =>
      obtain ⟨hround, hintact⟩ := h.consensus .reopen fun _ _ _ h => by cases h
      exact ⟨hround, load_coherent .., hintact⟩
  | recvVote i resp =>
      obtain ⟨hround, hintact⟩ := h.consensus (.vote i resp) fun _ _ _ h => by cases h
      exact ⟨hround, ⟨h.coherent.peerSet, h.coherent.modulesConfigs⟩, hintact⟩
  | recvNotarized resp =>
      obtain ⟨hround, hintact⟩ := h.consensus (.notarized resp)
        fun _ _ _ h => by cases h
      exact ⟨hround, ⟨h.coherent.peerSet, h.coherent.modulesConfigs⟩, hintact⟩
  | recvFinality k resp =>
      obtain ⟨hround, hintact⟩ := h.consensus (.finality k resp)
        fun _ _ _ h => by cases h
      exact ⟨hround, ⟨h.coherent.peerSet, h.coherent.modulesConfigs⟩, hintact⟩

omit [DecidableEq S] [Signing D S] in
/-- The first start bootstraps the modules from the params of the consensus. -/
theorem start_eq_load {ε : Type} {params : ConsensusParams D}
    {k : Option PeerPubkey} {pinned : Option (BlockRound × D)}
    {c : Consensus D S} {rest : M} {own : OwnVotes}
    (hinit : init params Db.empty k pinned = .ok c)
    (hstart : (start c rest own : Outcome ε _) = .ok n) :
    n = load c ⟨CtrlDb.empty.bootstrapConsensus ModuleId.consensusCtrl
      params.initCoreModuleConsVersion params.peers, rest⟩ own (0, 0) [] := by
  unfold start at hstart
  rw [Outcome.bind_of_ok (init_scheduled hinit 0)] at hstart
  exact (Except.ok.inj hstart).symm

omit [DecidableEq S] [Signing D S] in
theorem start_scheduleInv {ε : Type} {params : ConsensusParams D}
    {k : Option PeerPubkey} {pinned : Option (BlockRound × D)}
    {c : Consensus D S} {rest : M} {own : OwnVotes}
    (hinit : init params Db.empty k pinned = .ok c)
    (hstart : (start c rest own : Outcome ε _) = .ok n) : ScheduleInv n := by
  obtain rfl := start_eq_load hinit hstart
  have hsame := init_sameParams hinit
  have hintact : ScheduleIntact
      ((Db.empty : Db D S).insertConsensusParams 0 params).1
      (CtrlDb.empty.bootstrapConsensus ModuleId.consensusCtrl
        params.initCoreModuleConsVersion params.peers) :=
    scheduleIntact_insert (fun r hash hget => by cases hget)
      (fun e he => by cases he) fun k => CtrlDb.bootstrap_peers.symm
  exact ⟨init_roundInv hinit, load_coherent .., hintact.congr hsame fun _ => Iff.rfl⟩

/-- As long as every change gets an apply round of its own after the others, the
schedule is intact, and looking params up never panics. -/
theorem scheduleIntact_of_freshApplyRounds {ε : Type} {params : ConsensusParams D}
    {k : Option PeerPubkey} {pinned : Option (BlockRound × D)}
    {c : Consensus D S} {rest : M} {own : OwnVotes} {ops : List (AppOp D S)}
    (hinit : init params Db.empty k pinned = .ok c)
    (hstart : (start c rest own : Outcome ε _) = .ok n)
    (hops : Trail.Guarded (step E inits blocks) (FreshApplyRound E inits) n ops) :
    ScheduleIntact (run E inits blocks n ops).consensus.db
      (run E inits blocks n ops).modules.ctrl ∧
    ∀ r, ¬ ((run E inits blocks n ops).consensus.db.getConsensusParamsOpt r :
      Outcome ε _).Panicked := by
  have hinv := hops.invariant (I := ScheduleInv)
    (fun _ _ h hop => step_scheduleInv h hop) (start_scheduleInv hinit hstart)
  exact ⟨hinv.intact, hinv.intact.not_panicked⟩

end Runs

/-! ## One change and two changes -/

/-- Both peers vote to remove peer 11. -/
theorem scheduleIntact_after_removal :
    let blocks := [voteBlock 0 11 [.voteRemovePeer 11],
      voteBlock 1 10 [.voteRemovePeer 11]]
    ∃ n : VoteApp, voteApp = .ok n ∧
      ScheduleIntact (run Empty .empty blocks n (nexts 6)).consensus.db
        (run Empty .empty blocks n (nexts 6)).modules.ctrl := by
  intro blocks
  have hrun : voteApp.Returns fun n =>
      Trail.Guarded (step Empty .empty blocks) (FreshApplyRound Empty .empty) n
        (nexts 6) := by decide +kernel
  obtain ⟨n, hn, hops⟩ := Outcome.returns_iff.mp hrun
  obtain ⟨c, hinit, hstart⟩ := voteApp_eq_ok.mp hn
  exact ⟨n, hn, (scheduleIntact_of_freshApplyRounds hinit hstart hops).1⟩

/-- Peer 11 is removed and added again in one block: both changes apply in the
same round, and the params of the second are not stored. -/
theorem second_change_breaks_schedule :
    ¬ ∀ (n : VoteApp) (ops : List (AppOp ListDigest PlainSig)), voteApp = .ok n →
      ScheduleIntact (run Empty .empty twiceVoteBlocks n ops).consensus.db
        (run Empty .empty twiceVoteBlocks n ops).modules.ctrl := by
  intro h
  have hrun : voteApp.Returns fun n =>
      (run Empty .empty twiceVoteBlocks n
        (nexts 6)).consensus.db.consParamsSchedule.get? 35 ≠ none ∧
      ((run Empty .empty twiceVoteBlocks n
        (nexts 6)).consensus.db.consParamsSchedule.get? 35).bind (fun hash =>
          (run Empty .empty twiceVoteBlocks n
            (nexts 6)).consensus.db.consParams.get? hash) = none := by decide +kernel
  obtain ⟨n, hn, hscheduled, hmissing⟩ := Outcome.returns_iff.mp hrun
  obtain ⟨hash, hget⟩ := Option.ne_none_iff_exists'.mp hscheduled
  obtain ⟨p, hp, _⟩ := (h n (nexts 6) hn).stored 35 hash hget
  rw [hget, Option.bind_some, hp] at hmissing
  cases hmissing

end NodeApp

end Bfte
