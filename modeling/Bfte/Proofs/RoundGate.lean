import Bfte.Proofs.ApplyAhead

/-!
# When the gate is open for the current round

The app acknowledges the round after the last block it has processed, and stays
there until there is another block. Dummy rounds move the current round and not
the app. So once the app has processed every block there is, the gate is open as
long as one of the rounds just before the current one has a block; after too many
dummies in a row it is closed, and with it the rounds that would bring the block.
-/

namespace Bfte

open Consensus

namespace NodeApp

variable {D S M X : Type} [LinearOrder D] [Hashing D] {E : Type}
  [OtherModules M X E] {inits : ModulesInits} {n : NodeApp D S M X}

/-- Inside a block, the app stays at it and in its round, or goes to the round
after the block. -/
theorem next_place {blocks : List (FinalizedBlock D X)} (h : n.Coherent)
    {bk : FinalizedBlock D X × ℕ} (hblock : n.block = some bk) :
    (∀ bk', (n.next E inits blocks).block = some bk' → bk'.1 = bk.1) ∧
      ((n.next E inits blocks).curRoundIdx.1 = n.curRoundIdx.1 ∨
        (n.next E inits blocks).curRoundIdx.1 = bk.1.header.round + 1) := by
  have hcase := (next_spec E inits blocks h).1
  generalize n.next E inits blocks = n' at hcase
  have hstay : ∀ bk', n.block = some bk' → bk'.1 = bk.1 := by
    intro bk' hbk'
    rw [hblock] at hbk'
    cases hbk'
    rfl
  cases hcase with
  | idle _ hn =>
      subst hn
      exact ⟨hstay, Or.inl rfl⟩
  | opened b hnone hfind hn =>
      rw [hblock] at hnone
      cases hnone
  | finished b k hb _ hn =>
      subst hn
      rw [hblock] at hb
      cases hb
      refine ⟨?_, Or.inr rfl⟩
      rintro _ ⟨⟩
  | turned b k citem hb _ hturn =>
      rw [hblock] at hb
      cases hb
      have hadvanced : ∀ bk', some (b, k + 1) = some bk' → bk'.1 = b := by
        rintro _ ⟨⟩
        rfl
      cases hturn with
      | skipped _ hn =>
          subst hn
          exact ⟨hadvanced, Or.inl rfl⟩
      | applied _ _ _ hn =>
          subst hn
          exact ⟨hadvanced, Or.inl rfl⟩
      | failed _ _ hn =>
          subst hn
          exact ⟨hadvanced, Or.inl rfl⟩
      | stuck _ hn =>
          subst hn
          exact ⟨hstay, Or.inl rfl⟩

theorem next_notarized {blocks : List (FinalizedBlock D X)} (h : n.Coherent) :
    (n.next E inits blocks).consensus.db.consBlocksNotarized =
      n.consensus.db.consBlocksNotarized := by
  rcases (next_cases h : (n.next E inits blocks).consensus = n.consensus ∧ _ ∨ _)
    with ⟨hcons, _⟩ | ⟨b, citem, effects, _, hpre⟩
  · rw [hcons]
  · exact (corePre_sameBlocks hpre).notarized

end NodeApp

namespace AppNode

variable {D S M X : Type} [LinearOrder D]

/-- There is a notarized block of a round or a later one. -/
def HasBlockFrom (db : Db D S) (r : BlockRound) : Prop :=
  ∃ r' b, db.consBlocksNotarized.get? r' = some b ∧ r ≤ r'

/-- The app waits for a block, and has processed every block there is. -/
def CaughtUp (n : AppNode D S M X) : Prop :=
  n.waiting.isSome = true ∧
    ∀ e ∈ n.app.consensus.db.consBlocksNotarized.entries,
      e.1 < n.app.curRoundIdx.1

instance (n : AppNode D S M X) : Decidable n.CaughtUp :=
  inferInstanceAs (Decidable (_ ∧ _))

/-- One of the last rounds has a block, or there were not that many rounds yet. -/
def RecentBlock (db : Db D S) : Prop :=
  db.getCurrentRound < ConsensusParams.coreApplyDelayBase ∨
    ∃ e ∈ db.consBlocksNotarized.entries,
      db.getCurrentRound ≤ e.1 + ConsensusParams.coreApplyDelayBase

instance (db : Db D S) : Decidable (RecentBlock db) :=
  inferInstanceAs (Decidable (_ ∨ _))

theorem roundGate_eq_true {round ack : BlockRound} :
    roundGate round ack = .ok true ↔
      ack + ConsensusParams.coreApplyDelayBase ≤ BlockRound.MAX ∧
        round < ack + ConsensusParams.coreApplyDelayBase := by
  simp only [roundGate, Outcome.bind_eq_ok, Outcome.expect_eq_ok,
    BlockRound.checkedAdd, Outcome.pure_eq_ok, decide_eq_true_eq]
  constructor
  · rintro ⟨limit, hlimit, hlt⟩
    split at hlimit
    · next hle =>
        cases hlimit
        exact ⟨hle, hlt⟩
    · cases hlimit
  · rintro ⟨hle, hlt⟩
    exact ⟨_, if_pos hle, hlt⟩

variable [Hashing D] {E : Type} [OtherModules M X E] {inits : ModulesInits}
  {decode : BlockPayloadRaw → Option (List (CItem X))} {n : AppNode D S M X}

/-- The app is no further than the round after the latest block, and asks for its
own round or that of a block. -/
structure GateInv (n : AppNode D S M X) : Prop where
  order : NodeApp.OrderInv n.app
  behind : ∀ r, r + 1 = n.app.curRoundIdx.1 → HasBlockFrom n.app.consensus.db r
  inside : ∀ bk, n.app.block = some bk →
    HasBlockFrom n.app.consensus.db bk.1.header.round
  waiting : ∀ w, n.waiting = some w → n.app.block = none ∧
    n.nodeAppAck = w.reqRound ∧ n.app.curRoundIdx.1 ≤ w.reqRound ∧
    (w.reqRound = n.app.curRoundIdx.1 ∨
      HasBlockFrom n.app.consensus.db w.reqRound)

omit [OtherModules M X E] in
/-- Caught up, the app has acknowledged its own round. -/
theorem GateInv.ack_eq (h : GateInv n) (hcaught : n.CaughtUp) :
    n.nodeAppAck = n.app.curRoundIdx.1 := by
  obtain ⟨hsome, hdone⟩ := hcaught
  obtain ⟨w, hw⟩ := Option.isSome_iff_exists.mp hsome
  obtain ⟨_, hack, hle, heq | ⟨r, b, hb, hfrom⟩⟩ := h.waiting w hw
  · exact hack.trans heq
  · have hlt := hdone _ (SortedTable.mem_entries.mpr hb)
    exact absurd (hle.trans hfrom) (not_le.mpr hlt)

omit [OtherModules M X E] in
/-- The gate of a node whose app is caught up. -/
theorem GateInv.gate_iff (h : GateInv n) (hcaught : n.CaughtUp) :
    roundGate n.app.consensus.db.getCurrentRound n.nodeAppAck = .ok true ↔
      n.app.curRoundIdx.1 + ConsensusParams.coreApplyDelayBase ≤ BlockRound.MAX ∧
        RecentBlock n.app.consensus.db := by
  rw [roundGate_eq_true, h.ack_eq hcaught]
  refine and_congr_right fun _ => ⟨fun hlt => ?_, ?_⟩
  · cases hround : n.app.curRoundIdx.1 with
    | zero =>
        rw [hround, Nat.zero_add] at hlt
        exact Or.inl hlt
    | succ r =>
        obtain ⟨r', b, hb, hle⟩ := h.behind r hround.symm
        refine Or.inr ⟨_, SortedTable.mem_entries.mpr hb, ?_⟩
        show _ ≤ r' + _
        lia
  · rintro (hfew | ⟨e, he, hle⟩)
    · exact hfew.trans_le (Nat.le_add_left _ _)
    · exact lt_of_le_of_lt hle (Nat.add_lt_add_right (hcaught.2 e he) _)

section Steps

variable [DecidableEq S] [Signing D S]

omit [OtherModules M X E] in
/-- The consensus goes on, the app stays where it is. -/
theorem GateInv.message (h : GateInv n) (cop : ConsensusOp D S)
    {app : NodeApp D S M X} (horder : NodeApp.OrderInv app)
    (happ : app = { n.app with consensus := n.app.consensus.step cop }) :
    GateInv { n with app := app } := by
  have hfrom : ∀ {r}, HasBlockFrom n.app.consensus.db r →
      HasBlockFrom (n.app.consensus.step cop).db r := by
    rintro r ⟨r', b, hb, hle⟩
    obtain ⟨r'', b', hb', hle'⟩ := step_notarized_le _ cop h.order.rounds hb
    exact ⟨r'', b', hb', hle.trans hle'⟩
  subst happ
  refine ⟨horder, fun r hr => hfrom (h.behind r hr),
    fun bk hbk => hfrom (h.inside bk hbk), fun w hw => ?_⟩
  obtain ⟨hblock, hack, hle, hreq⟩ := h.waiting w hw
  exact ⟨hblock, hack, hle, hreq.imp_right hfrom⟩

omit [DecidableEq S] [Signing D S] in
theorem GateInv.next [CollisionFree D] (h : GateInv n)
    {bk : FinalizedBlock D X × ℕ} (hblock : n.app.block = some bk) :
    GateInv { n with app := n.app.next E inits [] } := by
  have hordered : NodeApp.Ordered n.app (n.app.next E inits [])
      (NodeApp.opChanges E inits n.app (.next : AppOp D S)) :=
    NodeApp.next_ordered h.order
  obtain ⟨hsame, hround⟩ : (∀ bk', (n.app.next E inits []).block = some bk' →
      bk'.1 = bk.1) ∧ _ := NodeApp.next_place h.order.coherent hblock
  have hfrom : ∀ {r}, HasBlockFrom n.app.consensus.db r →
      HasBlockFrom (n.app.next E inits []).consensus.db r := by
    intro r hr
    unfold HasBlockFrom
    rw [NodeApp.next_notarized h.order.coherent]
    exact hr
  refine ⟨hordered.inv, fun r hr => hfrom ?_, fun bk' hbk' => hfrom ?_, fun w hw => ?_⟩
  · rcases hround with hstay | hmoved
    · exact h.behind r (hr.trans hstay)
    · rw [Nat.succ.inj (hr.trans hmoved)]
      exact h.inside bk hblock
  · rw [hsame bk' hbk']
    exact h.inside bk hblock
  · rw [(h.waiting w hw).1] at hblock
    cases hblock

omit [OtherModules M X E] [DecidableEq S] [Signing D S] in
theorem GateInv.request (h : GateInv n) (hblock : n.app.block = none)
    {reqRound : BlockRound} (hle : n.app.curRoundIdx.1 ≤ reqRound)
    (hreq : reqRound = n.app.curRoundIdx.1 ∨
      HasBlockFrom n.app.consensus.db reqRound) : GateInv (n.request reqRound) := by
  refine ⟨h.order, h.behind, h.inside, fun w hw => ?_⟩
  cases hw
  exact ⟨hblock, rfl, hle, hreq⟩

omit [OtherModules M X E] [DecidableEq S] [Signing D S] in
theorem GateInv.call (h : GateInv n) {w : Waiting} (hw : n.waiting = some w) :
    GateInv (n.ackAndWaitNextBlock decode w) := by
  obtain ⟨hblock, hack, hle, hreq⟩ := h.waiting w hw
  have hwait : ∀ w', w'.reqRound = w.reqRound →
      GateInv { n with waiting := some w' } := by
    intro w' hw'
    refine ⟨h.order, h.behind, h.inside, fun w'' hw'' => ?_⟩
    cases hw''
    rw [hw']
    exact ⟨hblock, hack, hle, hreq⟩
  have hcase := call_cases decode n w
  generalize n.ackAndWaitNextBlock decode w = n' at hcase
  have hnext : ∀ b, n.app.consensus.db.getNextNotarizedBlock w.reqRound = some b →
      n.app.curRoundIdx.1 ≤ b.round ∧ HasBlockFrom n.app.consensus.db b.round := by
    intro b hb
    obtain ⟨hget, hlater, _⟩ := h.order.rounds.next_spec hb
    exact ⟨hle.trans hlater, b.round, b, hget, le_rfl⟩
  cases hcase with
  | idle => exact h
  | waits w' hreq' => exact hwait w' hreq'
  | asksAgain b hb =>
      obtain ⟨hle', hhas⟩ := hnext b hb
      exact h.request hblock hle' (Or.inr hhas)
  | hands b fb hb hheader =>
      obtain ⟨hle', hhas⟩ := hnext b hb
      refine ⟨⟨h.order.rounds, h.order.params,
        ⟨h.order.coherent.peerSet, h.order.coherent.modulesConfigs⟩,
        h.order.saved, ?_⟩, h.behind, ?_, ?_⟩
      · rintro _ ⟨⟩
        rw [hheader]
        exact hle'
      · rintro _ ⟨⟩
        rw [hheader]
        exact hhas
      · rintro _ ⟨⟩

theorem step_gateInv [CollisionFree D] (op : AppNodeOp D S) (h : GateInv n) :
    GateInv (step E inits decode n op) := by
  have horder : ∀ aop : AppOp D S, NodeApp.OrderInv (n.app.step E inits [] aop) :=
    fun aop => (NodeApp.step_ordered aop h.order).inv
  cases op with
  | startRound =>
      unfold step
      dsimp only
      split
      · exact ⟨h.order, h.behind, h.inside, h.waiting⟩
      · exact h
  | recvVote i resp =>
      show GateInv (if n.Running then
        { n with app := n.app.step E inits [] (.recvVote i resp) } else n)
      split
      · exact h.message (.vote i resp) (horder _) rfl
      · exact h
  | recvNotarized resp =>
      show GateInv (if n.Running then
        { n with app := n.app.step E inits [] (.recvNotarized resp) } else n)
      split
      · exact h.message (.notarized resp) (horder _) rfl
      · exact h
  | recvFinality k resp =>
      exact h.message (.finality k resp) (horder (.recvFinality k resp)) rfl
  | app =>
      show GateInv (n.nextApp E inits decode)
      unfold nextApp
      split
      · next hblock => exact h.next hblock
      · next hw => exact h.call hw
      · next hblock _ => exact h.request hblock le_rfl (Or.inl rfl)
  | restart =>
      refine ⟨horder .restart, fun r hr => ?_, ?_, ?_⟩
      · have hround : r + 1 = n.app.curRoundIdx.1 := hr.trans h.order.saved
        obtain ⟨r', b, hb, hle⟩ := h.behind r hround
        obtain ⟨r'', b', hb', hle'⟩ :=
          step_notarized_le _ (.reopen : ConsensusOp D S) h.order.rounds hb
        exact ⟨r'', b', hb', hle.trans hle'⟩
      · rintro _ ⟨⟩
      · rintro _ ⟨⟩

/-- In every state of every run in which the app has processed every block there
is, the gate is open for the current round if and only if one of the last rounds
has a block. -/
theorem gate_open_iff_recentBlock [CollisionFree D] {ε : Type}
    {params : ConsensusParams D} {k : Option PeerPubkey}
    {pinned : Option (BlockRound × D)} {c : Consensus D S} {rest : M}
    {own : OwnVotes} {app : NodeApp D S M X}
    (hinit : init params Db.empty k pinned = .ok c)
    (hstart : (NodeApp.start c rest own : Outcome ε _) = .ok app)
    (ops : List (AppNodeOp D S))
    (hcaught : (run E inits decode (start app) ops).CaughtUp) :
    roundGate (run E inits decode (start app) ops).app.consensus.db.getCurrentRound
        (run E inits decode (start app) ops).nodeAppAck = .ok true ↔
      (run E inits decode (start app) ops).app.curRoundIdx.1 +
          ConsensusParams.coreApplyDelayBase ≤ BlockRound.MAX ∧
        RecentBlock (run E inits decode (start app) ops).app.consensus.db := by
  have hinv : GateInv (start app) := by
    have horder := NodeApp.start_orderInv hinit hstart
    obtain rfl := NodeApp.start_eq_load hinit hstart
    refine ⟨horder, ?_, ?_, ?_⟩
    · intro r hr
      cases hr
    · rintro _ ⟨⟩
    · rintro _ ⟨⟩
  have hall : Trail.Guarded (step E inits decode) (fun _ _ => True) (start app)
      ops := .of_forall fun _ _ _ => trivial
  exact (hall.invariant (fun _ op h _ => step_gateInv op h) hinv).gate_iff hcaught

end Steps

/-! ## Dummy rounds in a row -/

section Dummies

/-- A round that both peers give up on. -/
def dummyRound (round : BlockRound) :
    WaitNotarizedBlockResponse ListDigest PlainSig :=
  ⟨notarizedBy [10, 11] [0, 1] (.newDummy round (plainParams [10, 11])), []⟩

/-- The app waits for its first block, and the rounds are started and given up. -/
def dummyRounds (k : ℕ) : List (AppNodeOp ListDigest PlainSig) :=
  .app :: (List.range k).flatMap fun round =>
    [.startRound, .recvNotarized (dummyRound round)]

theorem gate_open_after_31_dummies : ∃ app : NodeApp.VoteApp,
    NodeApp.voteApp = .ok app ∧ roundGate
      (run Empty .empty decodeVotes (start app)
        (dummyRounds 31)).app.consensus.db.getCurrentRound
      (run Empty .empty decodeVotes (start app) (dummyRounds 31)).nodeAppAck =
        .ok true := by
  have hrun : NodeApp.voteApp.Returns fun app =>
      (run Empty .empty decodeVotes (start app) (dummyRounds 31)).CaughtUp ∧
      (run Empty .empty decodeVotes (start app)
        (dummyRounds 31)).app.curRoundIdx.1 + ConsensusParams.coreApplyDelayBase ≤
          BlockRound.MAX ∧
      RecentBlock (run Empty .empty decodeVotes (start app)
        (dummyRounds 31)).app.consensus.db := by decide +kernel
  obtain ⟨app, happ, hcaught, hrecent⟩ := Outcome.returns_iff.mp hrun
  obtain ⟨c, hinit, hstart⟩ := NodeApp.voteApp_eq_ok.mp happ
  exact ⟨app, happ, (gate_open_iff_recentBlock hinit hstart _ hcaught).mpr hrecent⟩

/-- After 32 dummies the app still waits for its first block, and no round starts
any more. -/
theorem dummies_close_gate :
    ¬ ∀ (app : NodeApp.VoteApp) (k : ℕ), NodeApp.voteApp = .ok app →
      (run Empty .empty decodeVotes (start app) (dummyRounds k)).CaughtUp →
      roundGate
        (run Empty .empty decodeVotes (start app)
          (dummyRounds k)).app.consensus.db.getCurrentRound
        (run Empty .empty decodeVotes (start app) (dummyRounds k)).nodeAppAck =
          .ok true := by
  intro h
  have hrun : NodeApp.voteApp.Returns fun app =>
      (run Empty .empty decodeVotes (start app) (dummyRounds 32)).CaughtUp ∧
      roundGate
        (run Empty .empty decodeVotes (start app)
          (dummyRounds 32)).app.consensus.db.getCurrentRound
        (run Empty .empty decodeVotes (start app) (dummyRounds 32)).nodeAppAck =
          .ok false := by decide +kernel
  obtain ⟨app, happ, hcaught, hclosed⟩ := Outcome.returns_iff.mp hrun
  have hopen := h app 32 happ hcaught
  rw [hclosed] at hopen
  cases hopen

end Dummies

end AppNode

end Bfte
