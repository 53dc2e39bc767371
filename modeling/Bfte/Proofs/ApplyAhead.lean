import Bfte.App.AppApi
import Bfte.Proofs.CtrlVotes
import Bfte.Proofs.ParamsOrder
import Bfte.Proofs.RoundReach

/-!
# Changes of params apply in the future

The consensus asserts that new params apply after its current round. The apply
round is counted from the round the app is in, and the rounds may be ahead of it:
by as many as the gate lets them start, and then by as many as one notarized block
can jump over. The gate alone keeps the assertion if the app waits for the block
of the round it is in; a block that is taken has to be in reach as well, that is,
before the apply round of every change the app may still ask for.
-/

namespace Bfte

namespace Consensus

variable {D S : Type} [LinearOrder D] [Hashing D]

/-- The assertion of `consensus_params_change_tx` holds, if it is reached. -/
def AssertsFuture (c : Consensus D S) (round : BlockRound) (t : Timestamp)
    (s : PeerSet) : Prop :=
  ((do
    let current ← c.db.getConsensusParams round
    current.makeChange round t s
      ((c.db.getPrevNotarizedBlock (BlockRound.half round)).map fun b =>
        (b.round, Hashing.blockHash b))) : Outcome Empty _).WhenOk
    fun new => c.currentRoundWithTimeout.1 < new.applyRound

/-- It holds for one change after the other. -/
def ChangesAssertFuture (round : BlockRound) (t : Timestamp) :
    Consensus D S → List PeerSet → Prop
  | _, [] => True
  | c, s :: sets => c.AssertsFuture round t s ∧
      (c.consensusParamsChangeTx round t s : Outcome Empty _).WhenOk
        fun c' => ChangesAssertFuture round t c' sets

instance (c : Consensus D S) (round : BlockRound) (t : Timestamp) (s : PeerSet) :
    Decidable (c.AssertsFuture round t s) := by
  unfold AssertsFuture
  infer_instance

instance ChangesAssertFuture.decidable (round : BlockRound) (t : Timestamp) :
    ∀ (c : Consensus D S) (sets : List PeerSet),
      Decidable (ChangesAssertFuture round t c sets)
  | _, [] => .isTrue trivial
  | c, s :: sets =>
      have : DecidablePred fun c' : Consensus D S =>
          ChangesAssertFuture round t c' sets :=
        fun c' => ChangesAssertFuture.decidable round t c' sets
      inferInstanceAs (Decidable (c.AssertsFuture round t s ∧
        (c.consensusParamsChangeTx round t s : Outcome Empty _).WhenOk
          fun c' => ChangesAssertFuture round t c' sets))

/-- Every change asked for in a round from `start` to `r` applies after the round
after `r`. -/
def InReach (db : Db D S) (start r : BlockRound) : Prop :=
  ∀ s < r + 1, start ≤ s →
    (db.getConsensusParams s : Outcome Empty _).WhenOk fun p =>
      r + 1 < s + (p.peers.len + ConsensusParams.coreApplyDelayBase)

instance (db : Db D S) (start r : BlockRound) : Decidable (InReach db start r) := by
  unfold InReach
  infer_instance

/-- Every change asked for in a round from `start` to the current one applies
after the current one. -/
def Ahead (db : Db D S) (start : BlockRound) : Prop :=
  ∀ s, start ≤ s → s ≤ db.getCurrentRound → ∀ p,
    (db.getConsensusParams s : Outcome Empty _) = .ok p →
      db.getCurrentRound < s + (p.peers.len + ConsensusParams.coreApplyDelayBase)

/-- Scheduled params are stored, or say themselves from which round they apply. -/
def Dated (db : Db D S) : Prop :=
  ∀ r h, db.consParamsSchedule.get? r = some h →
    (∃ p, db.consParams.get? h = some p) ∨
      ∃ p : ConsensusParams D, Hashing.paramsHash p = h ∧ p.applyRound = r

variable {c c' : Consensus D S} {round : BlockRound} {t : Timestamp}

/-! ## In reach -/

omit [Hashing D] in
/-- The round after one in reach is ahead. -/
theorem InReach.ahead {db : Db D S} {start r : BlockRound} (h : InReach db start r)
    (hcur : db.getCurrentRound ≤ r + 1) : Ahead db start := by
  intro s hs hle p hp
  rcases Nat.lt_or_ge s (r + 1) with hlt | hge
  · exact lt_of_le_of_lt hcur (Outcome.whenOk_iff.mp (h s hlt hs) p hp)
  · rw [ConsensusParams.coreApplyDelayBase]
    lia

omit [Hashing D] in
theorem InReach.mono {db : Db D S} {start start' r : BlockRound}
    (h : InReach db start r) (hle : start ≤ start') : InReach db start' r :=
  fun s hs hstart => h s hs (hle.trans hstart)

omit [Hashing D] in
theorem Ahead.mono {db : Db D S} {start start' : BlockRound} (h : Ahead db start)
    (hle : start ≤ start') : Ahead db start' :=
  fun s hs => h s (hle.trans hs)

omit [Hashing D] in
theorem InReach.congr {db db' : Db D S} {start r : BlockRound}
    (h : InReach db start r) (hsame : SameParams db db') : InReach db' start r := by
  intro s hs hstart
  rw [hsame.getConsensusParams]
  exact h s hs hstart

omit [Hashing D] in
/-- The gate opens for rounds in reach of the round acknowledged. -/
theorem inReach_of_gate {db : Db D S} {start r ack : BlockRound}
    (hmanned : Manned db) (hack : ack ≤ start)
    (hgate : r < ack + ConsensusParams.coreApplyDelayBase) :
    InReach db start r := by
  intro s _ hs
  refine Outcome.whenOk_iff.mpr fun p hp => ?_
  have hpos := hmanned.peers_of_params hp
  lia

/-! ## One change -/

/-- A change whose apply round is ahead asserts it, and so do those after it. -/
theorem changesAssertFuture_of_ahead [CollisionFree D] {sets : List PeerSet}
    (hinv : ParamsInv c)
    (h : ∀ p, (c.db.getConsensusParams round : Outcome Empty _) = .ok p →
      c.currentRoundWithTimeout.1 <
        round + (p.peers.len + ConsensusParams.coreApplyDelayBase)) :
    ChangesAssertFuture round t c sets := by
  induction sets generalizing c with
  | nil => trivial
  | cons s sets ih =>
      refine ⟨Outcome.whenOk_iff.mpr fun new hnew => ?_,
        Outcome.whenOk_iff.mpr fun c₁ hc₁ => ?_⟩
      · obtain ⟨cur, hcur, hmade⟩ := Outcome.bind_eq_ok.mp hnew
        rw [(NodeApp.makeChange_made hmade).applyRound]
        exact h cur hcur
      · obtain ⟨cur, new, hcur, _, _, hres⟩ := consensusParamsChangeTx_ok hc₁
        obtain ⟨hinv₁, hcur₁⟩ := NodeApp.consensusParamsChangeTx_params hinv hcur hc₁
        refine ih hinv₁ fun p hp => ?_
        rw [hcur₁] at hp
        cases hp
        rw [hres]
        exact h cur hcur

/-- A change of params does not bring params for an earlier round either. -/
theorem getConsensusParams_of_insert [CollisionFree D] {ε : Type} {db : Db D S}
    {r : BlockRound} {new p : ConsensusParams D}
    (hhash : ∀ h p, db.consParams.get? h = some p → Hashing.paramsHash p = h)
    (hdated : Dated db) (hr : r < new.applyRound)
    (hp : ((db.insertConsensusParams new.applyRound new).1.getConsensusParams r :
      Outcome ε _) = .ok p) : (db.getConsensusParams r : Outcome ε _) = .ok p := by
  obtain ⟨e, he, hget⟩ := Db.getConsensusParams_eq_ok.mp hp
  have he' : db.consParamsSchedule.lastUpTo r = some e := by
    rw [← he, insertConsensusParams_schedule]
    refine SortedTable.lastUpTo_congr fun k hk => ?_
    exact (SortedTable.get?_insert_of_ne (ne_of_lt (lt_of_le_of_lt hk hr))).symm
  refine Db.getConsensusParams_eq_ok.mpr ⟨e, he', ?_⟩
  obtain ⟨hentry, hle, _⟩ := SortedTable.lastUpTo_eq_some.mp he'
  rcases get?_insertConsensusParams hget with ⟨heq, rfl⟩ | hold
  · rcases hdated e.1 e.2 hentry with ⟨q, hq⟩ | ⟨q, hq, happly⟩
    · rw [hq, CollisionFree.paramsHash_inj q p ((hhash _ _ hq).trans heq)]
    · have hsame := CollisionFree.paramsHash_inj q p (hq.trans heq)
      rw [hsame] at happly
      exact absurd (happly.le.trans hle) (not_le.mpr hr)
  · exact hold

theorem Dated.insert {db : Db D S} {new : ConsensusParams D} (h : Dated db) :
    Dated (db.insertConsensusParams new.applyRound new).1 := by
  intro r hash hget
  rw [insertConsensusParams_schedule, SortedTable.get?_insert] at hget
  split at hget
  · next heq =>
      cases hget
      exact Or.inr ⟨new, rfl, heq.symm⟩
  · rcases h r hash hget with ⟨p, hp⟩ | hdated
    · refine Or.inl ?_
      simp only [Db.insertConsensusParams]
      split
      · exact ⟨p, hp⟩
      · simp only
        rw [SortedTable.get?_insert]
        split
        · exact ⟨new, rfl⟩
        · exact ⟨p, hp⟩
    · exact Or.inr hdated

/-- What scheduling changes leaves as it was. -/
structure Rescheduled (c c' : Consensus D S) : Prop where
  blocks : SameBlocks c.db c'.db
  params : ParamsInv c'
  manned : Manned c'.db
  dated : Dated c'.db
  idle : Idle c.db → Idle c'.db
  earlier : ∀ s ≤ c.db.getCurrentRound, ∀ p,
    (c'.db.getConsensusParams s : Outcome Empty _) = .ok p →
      (c.db.getConsensusParams s : Outcome Empty _) = .ok p

theorem consensusParamsChangeTx_rescheduled [CollisionFree D] {ε : Type}
    {s : PeerSet} (hparams : ParamsInv c) (hmanned : Manned c.db)
    (hdated : Dated c.db) (hs : s.len ≠ 0)
    (h : (c.consensusParamsChangeTx round t s : Outcome ε _) = .ok c') :
    Rescheduled c c' := by
  have hmanned' := hmanned.paramsChange hs h
  obtain ⟨cur, new, hcur, hnew, hlt, rfl⟩ := consensusParamsChangeTx_ok h
  have hblocks := insertConsensusParams_sameBlocks c.db new.applyRound new
  rw [hparams.channel] at hlt
  refine ⟨hblocks, ⟨fun hash p hget => insertConsensusParams_hash hparams.hash hget,
    ?_⟩, hmanned', hdated.insert, fun hidle => hidle.insertConsensusParams hparams.hash hlt,
    fun r hr p hp => ?_⟩
  · rw [hblocks.getCurrentRound]
    exact hparams.channel
  · exact getConsensusParams_of_insert hparams.hash hdated (lt_of_le_of_lt hr hlt) hp

theorem Rescheduled.refl (hparams : ParamsInv c) (hmanned : Manned c.db)
    (hdated : Dated c.db) : Rescheduled c c :=
  ⟨⟨rfl, rfl, rfl⟩, hparams, hmanned, hdated, id, fun _ _ _ hp => hp⟩

theorem Rescheduled.trans {c'' : Consensus D S} (h : Rescheduled c c')
    (h' : Rescheduled c' c'') : Rescheduled c c'' where
  blocks := h.blocks.trans h'.blocks
  params := h'.params
  manned := h'.manned
  dated := h'.dated
  idle hidle := h'.idle (h.idle hidle)
  earlier s hs p hp := h.earlier s hs p
    (h'.earlier s (by rw [h.blocks.getCurrentRound]; exact hs) p hp)

theorem Rescheduled.ahead (h : Rescheduled c c') {start : BlockRound}
    (hahead : Ahead c.db start) : Ahead c'.db start := by
  intro s hs hle p hp
  rw [h.blocks.getCurrentRound] at hle ⊢
  exact hahead s hs hle p (h.earlier s hle p hp)

theorem Rescheduled.inReach (h : Rescheduled c c') {start r : BlockRound}
    (hr : r ≤ c.db.getCurrentRound) (hreach : InReach c.db start r) :
    InReach c'.db start r := by
  intro s hs hstart
  refine Outcome.whenOk_iff.mpr fun p hp => ?_
  have hle : s ≤ c.db.getCurrentRound := (Nat.le_of_lt_succ hs).trans hr
  exact Outcome.whenOk_iff.mp (hreach s hs hstart) p (h.earlier s hle p hp)

/-- The changes of an item, one after the other. -/
theorem corePre_rescheduled [CollisionFree D] {E ε : Type}
    {effects : List (ModuleCItemEffect E)} (hparams : ParamsInv c)
    (hmanned : Manned c.db) (hdated : Dated c.db)
    (hsets : ∀ s ∈ NodeApp.paramsChanges effects, s.len ≠ 0)
    (h : NodeApp.processConsensusChangeEffectsCorePre round t c effects =
      (.ok c' : Outcome ε _)) : Rescheduled c c' := by
  rw [NodeApp.corePre_eq] at h
  generalize NodeApp.paramsChanges effects = sets at h hsets
  induction sets generalizing c with
  | nil =>
      cases h
      exact .refl hparams hmanned hdated
  | cons s sets ih =>
      rw [List.foldlM_cons, Outcome.bind_eq_ok] at h
      obtain ⟨c₁, hc₁, hrest⟩ := h
      have hstep := consensusParamsChangeTx_rescheduled hparams hmanned hdated
        (hsets s List.mem_cons_self) hc₁
      exact hstep.trans (ih hstep.params hstep.manned hstep.dated hrest
        fun s' hs' => hsets s' (List.mem_cons_of_mem s hs'))

end Consensus

open Consensus

/-! ## The app -/

namespace NodeApp

variable {D S M X : Type} [LinearOrder D] [Hashing D] {E : Type}
  [OtherModules M X E] {inits : ModulesInits} {n : NodeApp D S M X}

/-- The assertion holds each time the next step of the app reaches it. -/
def AssertionHolds (E : Type) [OtherModules M X E] (inits : ModulesInits)
    (n : NodeApp D S M X) : Prop :=
  ∀ bk ∈ n.block, ∀ citem ∈ bk.1.citems[bk.2]?, n.curRoundIdx.2 ≤ bk.2 →
    ∀ peerSet ∈ n.reloadInvalidatedCopies.peerSet,
      (collectEffects (X := X) (E := E) inits n.reloadInvalidatedCopies.modulesMap n.modules
        bk.1.header.round bk.1.peerPubkey peerSet citem).WhenOk fun r =>
          ChangesAssertFuture n.curRoundIdx.1 bk.1.header.timestamp n.consensus
            (paramsChanges r.2)

instance (n : NodeApp D S M X) : Decidable (AssertionHolds E inits n) := by
  unfold AssertionHolds
  infer_instance

/-- What a step of the app inside a block does to the consensus: nothing, or what
an item says that is applied. -/
theorem next_cases {blocks : List (FinalizedBlock D X)} (h : n.Coherent) :
    ((n.next E inits blocks).consensus = n.consensus ∧
      (n.next E inits blocks).modules = n.modules) ∨
    ∃ (b : FinalizedBlock D X) (citem : CItem X)
        (effects : List (ModuleCItemEffect E)),
      itemOutcome E inits n.modules b citem =
        .ok ((n.next E inits blocks).modules, effects) ∧
      processConsensusChangeEffectsCorePre n.curRoundIdx.1 b.header.timestamp
        n.consensus effects =
          (.ok (n.next E inits blocks).consensus :
            Outcome ProcessCItemError _) := by
  have hcase := (next_spec E inits blocks h).1
  generalize n.next E inits blocks = n' at hcase
  cases hcase with
  | idle _ hn =>
      subst hn
      exact Or.inl ⟨rfl, rfl⟩
  | opened _ _ _ hn =>
      subst hn
      exact Or.inl ⟨rfl, rfl⟩
  | finished _ _ _ _ hn =>
      subst hn
      exact Or.inl ⟨rfl, rfl⟩
  | turned b k citem _ _ hturn =>
      cases hturn with
      | skipped _ hn =>
          subst hn
          exact Or.inl ⟨rfl, rfl⟩
      | applied _ hout hpre hn =>
          subst hn
          exact Or.inr ⟨b, citem, _, hout, hpre⟩
      | failed _ _ hn =>
          subst hn
          exact Or.inl ⟨rfl, rfl⟩
      | stuck _ hn =>
          subst hn
          exact Or.inl ⟨rfl, rfl⟩

end NodeApp

/-! ## The node -/

namespace AppNode

variable {D S M X : Type} [LinearOrder D] [Hashing D] {E : Type}
  [OtherModules M X E] {inits : ModulesInits}
  {decode : BlockPayloadRaw → Option (List (CItem X))} {n : AppNode D S M X}

omit [OtherModules M X E] in
theorem finalizedBlock_header {db : Db D S} {block : BlockHeader D}
    {b : FinalizedBlock D X} (h : finalizedBlock decode db block = .ok b) :
    b.header = block := by
  simp only [finalizedBlock, Outcome.bind_eq_ok, Outcome.pure_eq_ok] at h
  obtain ⟨_, _, _, _, _, _, _, _, _, _, rfl⟩ := h
  rfl

/-- What the call the app waits in can do when it goes on. -/
inductive CallCase (n : AppNode D S M X) (w : Waiting) : AppNode D S M X → Prop
  | idle : CallCase n w n
  | waits (w' : Waiting) (hreq : w'.reqRound = w.reqRound) :
      CallCase n w { n with waiting := some w' }
  | asksAgain (b : BlockHeader D)
      (hnext : n.app.consensus.db.getNextNotarizedBlock w.reqRound = some b) :
      CallCase n w (n.request b.round)
  | hands (b : BlockHeader D) (fb : FinalizedBlock D X)
      (hnext : n.app.consensus.db.getNextNotarizedBlock w.reqRound = some b)
      (hheader : fb.header = b) :
      CallCase n w { n with
        app := { n.app with block := some (fb, 0) }
        waiting := none }

/-- The app is never so far behind that a change it asks for applies too late. -/
structure PaceInv (n : AppNode D S M X) : Prop where
  order : NodeApp.OrderInv n.app
  peopled : n.app.modules.ctrl.getPeerSet.len ≠ 0
  manned : Manned n.app.consensus.db
  dated : Dated n.app.consensus.db
  ahead : Ahead n.app.consensus.db n.app.curRoundIdx.1
  settled : InReach n.app.consensus.db n.app.curRoundIdx.1
      n.app.consensus.db.getCurrentRound ∨ Idle n.app.consensus.db
  running : ∀ r, n.round = some r → r ≤ n.app.consensus.db.getCurrentRound ∧
    (r = n.app.consensus.db.getCurrentRound →
      InReach n.app.consensus.db n.app.curRoundIdx.1 r)
  waiting : ∀ w, n.waiting = some w →
    n.app.block = none ∧ n.app.curRoundIdx.1 ≤ w.reqRound

/-- In such a state the assertion holds. -/
theorem PaceInv.assertionHolds [CollisionFree D] (h : PaceInv n) :
    NodeApp.AssertionHolds E inits n.app := by
  intro bk _ citem _ _ peerSet _
  refine Outcome.whenOk_iff.mpr fun r _ => ?_
  refine changesAssertFuture_of_ahead h.order.params fun p hp => ?_
  rw [h.order.params.channel]
  rcases le_or_gt n.app.curRoundIdx.1 n.app.consensus.db.getCurrentRound with
    hle | hlt
  · exact h.ahead _ le_rfl hle p hp
  · lia

/-- What a round that was started knows, after a step that takes no round back. -/
theorem PaceInv.running_of (h : PaceInv n) {db' : Db D S}
    (hle : n.app.consensus.db.getCurrentRound ≤ db'.getCurrentRound)
    (hreach : ∀ r ≤ n.app.consensus.db.getCurrentRound,
      InReach n.app.consensus.db n.app.curRoundIdx.1 r →
        InReach db' n.app.curRoundIdx.1 r) (r : BlockRound)
    (hr : n.round = some r) : r ≤ db'.getCurrentRound ∧
      (r = db'.getCurrentRound → InReach db' n.app.curRoundIdx.1 r) := by
  obtain ⟨hbehind, hin⟩ := h.running r hr
  refine ⟨hbehind.trans hle, fun heq => ?_⟩
  have hcur : r = n.app.consensus.db.getCurrentRound :=
    le_antisymm hbehind (heq ▸ hle)
  exact hreach r hbehind (hin hcur)

section Steps

variable [DecidableEq S] [Signing D S]

/-- Every block that is taken is in reach of the round the app is in, and so is
every round that is started while the app waits for a later block than the one of
its round. -/
def KeepsUp (n : AppNode D S M X) : AppNodeOp D S → Prop
  | .startRound => n.app.curRoundIdx.1 < n.nodeAppAck →
      InReach n.app.consensus.db n.app.curRoundIdx.1
        n.app.consensus.db.getCurrentRound
  | .recvNotarized resp => resp.block.inner.isDummy = false →
      checkNotarized n.app.consensus.db resp = .ok () →
      Takes n.app.consensus.db resp.block.inner →
      InReach n.app.consensus.db n.app.curRoundIdx.1 resp.block.inner.round
  | _ => True

instance (n : AppNode D S M X) (op : AppNodeOp D S) : Decidable (KeepsUp n op) :=
  match op with
  | .startRound => inferInstanceAs (Decidable (_ → InReach _ _ _))
  | .recvNotarized _ => inferInstanceAs (Decidable (_ → _ → _ → InReach _ _ _))
  | .recvVote _ _ => .isTrue trivial
  | .recvFinality _ _ => .isTrue trivial
  | .app => .isTrue trivial
  | .restart => .isTrue trivial

/-- Messages and restarts, as long as the round is in reach or cannot move. -/
theorem PaceInv.consensus (h : PaceInv n) (op : ConsensusOp D S)
    (hop : ∀ r t s, op ≠ .paramsChange r t s)
    (hcan : (InReach n.app.consensus.db n.app.curRoundIdx.1
        n.app.consensus.db.getCurrentRound ∧
      ∀ resp, op = .notarized resp → resp.block.inner.isDummy = false →
        checkNotarized n.app.consensus.db resp = .ok () →
        Takes n.app.consensus.db resp.block.inner →
        InReach n.app.consensus.db n.app.curRoundIdx.1 resp.block.inner.round) ∨
      (Idle n.app.consensus.db ∧
        (op = .reopen ∨ ∃ k resp, op = .finality k resp))) :
    Manned (n.app.consensus.step op).db ∧ Dated (n.app.consensus.step op).db ∧
      Ahead (n.app.consensus.step op).db n.app.curRoundIdx.1 ∧
      (InReach (n.app.consensus.step op).db n.app.curRoundIdx.1
        (n.app.consensus.step op).db.getCurrentRound ∨
          Idle (n.app.consensus.step op).db) := by
  have hmoved := step_moved n.app.consensus op h.order.rounds h.manned hop
  have hsame := step_sameParams n.app.consensus op h.order.rounds hop
  have hdated : Dated (n.app.consensus.step op).db := by
    unfold Dated
    rw [hsame.schedule, hsame.params]
    exact h.dated
  refine ⟨hmoved.manned, hdated, ?_⟩
  rcases hcan with ⟨hreach, htaken⟩ | ⟨hidle, hquiet⟩
  · refine ⟨?_, ?_⟩
    · rcases hmoved.reach with hle | ⟨resp, hresp, hdummy, hok, htakes, hle⟩
      · exact (hreach.congr hsame).ahead hle
      · exact ((htaken resp hresp hdummy hok htakes).congr hsame).ahead hle
    · rcases hmoved.settled with hcur | hidle
      · rw [hcur]
        exact Or.inl (hreach.congr hsame)
      · exact Or.inr hidle
  · obtain ⟨hcur, hidle'⟩ :=
      step_of_idle n.app.consensus op h.order.rounds hidle hquiet
    refine ⟨fun s hs hle p hp => ?_, Or.inr hidle'⟩
    rw [hcur] at hle ⊢
    rw [hsame.getConsensusParams] at hp
    exact h.ahead s hs hle p hp

/-- Something happens to the consensus, the app stays where it is. -/
theorem PaceInv.message [CollisionFree D] (h : PaceInv n) {op : AppOp D S}
    (cop : ConsensusOp D S) (hop : ∀ r t s, cop ≠ .paramsChange r t s)
    (hcan : (InReach n.app.consensus.db n.app.curRoundIdx.1
        n.app.consensus.db.getCurrentRound ∧
      ∀ resp, cop = .notarized resp → resp.block.inner.isDummy = false →
        checkNotarized n.app.consensus.db resp = .ok () →
        Takes n.app.consensus.db resp.block.inner →
        InReach n.app.consensus.db n.app.curRoundIdx.1 resp.block.inner.round) ∨
      (Idle n.app.consensus.db ∧
        (cop = .reopen ∨ ∃ k resp, cop = .finality k resp)))
    (happ : n.app.step E inits [] op = { n.app with
      consensus := n.app.consensus.step cop }) :
    PaceInv { n with app := n.app.step E inits [] op } := by
  have horder : NodeApp.OrderInv (n.app.step E inits [] op) :=
    (NodeApp.step_ordered op h.order).inv
  obtain ⟨hmanned, hdated, hahead, hsettled⟩ := h.consensus cop hop hcan
  have hmoved := step_moved n.app.consensus cop h.order.rounds h.manned hop
  have hsame := step_sameParams n.app.consensus cop h.order.rounds hop
  rw [happ] at horder ⊢
  exact ⟨horder, h.peopled, hmanned, hdated, hahead, hsettled,
    h.running_of hmoved.cur_le fun r _ hreach => hreach.congr hsame, h.waiting⟩

omit [DecidableEq S] [Signing D S] in
/-- The app takes a step inside a block. -/
theorem PaceInv.next [CollisionFree D] (h : PaceInv n)
    (hblock : n.app.block ≠ none) :
    PaceInv { n with app := n.app.next E inits [] } := by
  have hordered : NodeApp.Ordered n.app (n.app.next E inits [])
      (NodeApp.opChanges E inits n.app (.next : AppOp D S)) :=
    NodeApp.next_ordered h.order
  have hwaiting : ∀ w, n.waiting = some w →
      (n.app.next E inits []).block = none ∧
        (n.app.next E inits []).curRoundIdx.1 ≤ w.reqRound :=
    fun w hw => absurd (h.waiting w hw).1 hblock
  have hle := hordered.round_le
  have hrunning : ∀ c', Rescheduled n.app.consensus c' → ∀ r, n.round = some r →
      r ≤ c'.db.getCurrentRound ∧ (r = c'.db.getCurrentRound →
        InReach c'.db (n.app.next E inits []).curRoundIdx.1 r) := by
    intro c' hc' r hr
    obtain ⟨hbehind, hin⟩ := h.running_of hc'.blocks.getCurrentRound.ge
      (fun r hr hreach => hc'.inReach hr hreach) r hr
    exact ⟨hbehind, fun heq => (hin heq).mono hle⟩
  have hall : ∀ c', Rescheduled n.app.consensus c' →
      (n.app.next E inits []).consensus = c' →
      (n.app.next E inits []).modules.ctrl.getPeerSet.len ≠ 0 →
      PaceInv { n with app := n.app.next E inits [] } := by
    intro c' hc' hcons hpeopled
    have hahead := (hc'.ahead h.ahead).mono hle
    have hsettled : InReach c'.db (n.app.next E inits []).curRoundIdx.1
        c'.db.getCurrentRound ∨ Idle c'.db := by
      rcases h.settled with hreach | hidle
      · rw [hc'.blocks.getCurrentRound]
        exact Or.inl ((hc'.inReach le_rfl hreach).mono hle)
      · exact Or.inr (hc'.idle hidle)
    have hrun := hrunning c' hc'
    rw [← hcons] at hc' hahead hsettled hrun
    exact ⟨hordered.inv, hpeopled, hc'.manned, hc'.dated, hahead, hsettled, hrun,
      hwaiting⟩
  rcases (NodeApp.next_cases h.order.coherent :
      (n.app.next E inits []).consensus = n.app.consensus ∧ _ ∨ _)
    with ⟨hcons, hmodules⟩ | ⟨b, citem, effects, hout, hpre⟩
  · refine hall _ (.refl h.order.params h.manned h.dated) hcons ?_
    rw [hmodules]
    exact h.peopled
  · obtain ⟨hpeopled, hsets⟩ := NodeApp.processModules_len_ne_zero h.peopled hout
    exact hall _ (corePre_rescheduled h.order.params h.manned h.dated hsets hpre)
      rfl hpeopled

omit [OtherModules M X E] [DecidableEq S] [Signing D S] in
variable (decode) in
theorem call_cases (n : AppNode D S M X) (w : Waiting) :
    CallCase n w (n.ackAndWaitNextBlock decode w) := by
  unfold ackAndWaitNextBlock
  split
  · dsimp only
    split
    · exact .waits _ rfl
    · exact .idle
  · dsimp only
    split
    · exact .waits _ rfl
    · exact .idle
  · split
    · next b hnext =>
        split
        · split
          · next fb hfb => exact .hands b fb hnext (finalizedBlock_header hfb)
          · exact .idle
        · exact .asksAgain b hnext
    · exact .idle

omit [OtherModules M X E] [DecidableEq S] [Signing D S] in
theorem PaceInv.request (h : PaceInv n) (hblock : n.app.block = none)
    {reqRound : BlockRound} (hle : n.app.curRoundIdx.1 ≤ reqRound) :
    PaceInv (n.request reqRound) := by
  refine ⟨h.order, h.peopled, h.manned, h.dated, h.ahead, h.settled, h.running,
    fun w hw => ?_⟩
  cases hw
  exact ⟨hblock, hle⟩

omit [OtherModules M X E] [DecidableEq S] [Signing D S] in
/-- The call goes on for rounds from the app's round on. -/
theorem PaceInv.call (h : PaceInv n) {w : Waiting} (hw : n.waiting = some w) :
    PaceInv (n.ackAndWaitNextBlock decode w) := by
  obtain ⟨hblock, hle⟩ := h.waiting w hw
  have hwait : ∀ w', n.app.curRoundIdx.1 ≤ w'.reqRound →
      PaceInv { n with waiting := some w' } := by
    intro w' hle'
    refine ⟨h.order, h.peopled, h.manned, h.dated, h.ahead, h.settled, h.running,
      fun w'' hw'' => ?_⟩
    cases hw''
    exact ⟨hblock, hle'⟩
  have hcase := call_cases decode n w
  generalize n.ackAndWaitNextBlock decode w = n' at hcase
  cases hcase with
  | idle => exact h
  | waits w' hreq => exact hwait w' (by rw [hreq]; exact hle)
  | asksAgain b hnext =>
      exact h.request hblock (hle.trans (h.order.rounds.next_spec hnext).2.1)
  | hands b fb hnext hheader =>
      refine ⟨⟨h.order.rounds, h.order.params,
        ⟨h.order.coherent.peerSet, h.order.coherent.modulesConfigs⟩,
        h.order.saved, ?_⟩, h.peopled, h.manned, h.dated, h.ahead,
        h.settled, h.running, ?_⟩
      · rintro _ ⟨⟩
        rw [hheader]
        exact hle.trans (h.order.rounds.next_spec hnext).2.1
      · rintro _ ⟨⟩

theorem step_paceInv [CollisionFree D] (op : AppNodeOp D S) (h : PaceInv n)
    (hop : KeepsUp n op) : PaceInv (step E inits decode n op) := by
  cases op with
  | startRound =>
      unfold step
      dsimp only
      split
      · next hgate =>
          refine ⟨h.order, h.peopled, h.manned, h.dated, h.ahead, h.settled, ?_,
            h.waiting⟩
          rintro _ ⟨⟩
          refine ⟨le_rfl, fun _ => ?_⟩
          rcases le_or_gt n.nodeAppAck n.app.curRoundIdx.1 with hack | hlt
          · refine inReach_of_gate h.manned hack ?_
            simp only [roundGate, Outcome.bind_eq_ok, Outcome.expect_eq_ok,
              BlockRound.checkedAdd, Outcome.pure_eq_ok] at hgate
            obtain ⟨limit, hlimit, hopen⟩ := hgate
            split at hlimit
            · cases hlimit
              exact of_decide_eq_true hopen
            · cases hlimit
          · exact hop hlt
      · exact h
  | recvVote i resp =>
      show PaceInv (if n.Running then
        { n with app := n.app.step E inits [] (.recvVote i resp) } else n)
      split
      · next hrun =>
          obtain ⟨_, hin⟩ := h.running _ hrun
          rw [h.order.params.channel] at hin
          exact h.message (.vote i resp) (by simp)
            (Or.inl ⟨hin rfl, fun _ hr => by cases hr⟩) rfl
      · exact h
  | recvNotarized resp =>
      show PaceInv (if n.Running then
        { n with app := n.app.step E inits [] (.recvNotarized resp) } else n)
      split
      · next hrun =>
          obtain ⟨_, hin⟩ := h.running _ hrun
          rw [h.order.params.channel] at hin
          refine h.message (.notarized resp) (by simp)
            (Or.inl ⟨hin rfl, fun resp' hr => ?_⟩) rfl
          cases hr
          exact hop
      · exact h
  | recvFinality k resp =>
      refine h.message (.finality k resp) (by simp) ?_ rfl
      rcases h.settled with hreach | hidle
      · exact Or.inl ⟨hreach, fun _ hr => by cases hr⟩
      · exact Or.inr ⟨hidle, Or.inr ⟨k, resp, rfl⟩⟩
  | app =>
      show PaceInv (n.nextApp E inits decode)
      unfold nextApp
      split
      · next hblock =>
          exact h.next (by rw [hblock]; simp)
      · next w _ hw => exact h.call hw
      · next hblock hw => exact h.request hblock le_rfl
  | restart =>
      obtain ⟨hmanned, hdated, hahead, hsettled⟩ := h.consensus .reopen (by simp)
        (h.settled.imp (fun hreach => ⟨hreach, fun _ hr => by cases hr⟩)
          fun hidle => ⟨hidle, Or.inl rfl⟩)
      have horder : NodeApp.OrderInv (n.app.step E inits [] .restart) :=
        (NodeApp.step_ordered .restart h.order).inv
      have hround : (n.app.step E inits [] .restart).curRoundIdx.1 =
          n.app.curRoundIdx.1 := h.order.saved
      refine ⟨horder, h.peopled, hmanned, hdated, ?_, ?_, ?_, ?_⟩
      · show Ahead _ (n.app.step E inits [] .restart).curRoundIdx.1
        rw [hround]
        exact hahead
      · show InReach _ (n.app.step E inits [] .restart).curRoundIdx.1 _ ∨ _
        rw [hround]
        exact hsettled
      · rintro _ ⟨⟩
      · rintro _ ⟨⟩

end Steps

/-! ## Whole runs -/

section Runs

theorem start_paceInv {ε : Type} {params : ConsensusParams D}
    {k : Option PeerPubkey} {pinned : Option (BlockRound × D)}
    {c : Consensus D S} {rest : M} {own : OwnVotes} {app : NodeApp D S M X}
    (hinit : init params Db.empty k pinned = .ok c)
    (hstart : (NodeApp.start c rest own : Outcome ε _) = .ok app) :
    PaceInv (start app) := by
  have hmanned := init_manned hinit
  have hparams : (c.db.getConsensusParams 0 : Outcome Empty _) = .ok params :=
    init_scheduled hinit 0
  have horder := NodeApp.start_orderInv hinit hstart
  obtain rfl := NodeApp.start_eq_load hinit hstart
  have hcur := init_cur_le hinit
  refine ⟨horder, ?_, hmanned, ?_, ?_, Or.inr (init_idle hinit), ?_, ?_⟩
  · obtain ⟨q, hq⟩ := List.exists_mem_of_length_pos
      (Nat.pos_of_ne_zero (hmanned.peers_of_params hparams))
    rw [CtrlDb.getPeerSet_len_ne_zero]
    exact ⟨q, CtrlDb.bootstrap_peers.mpr (decide_eq_true hq)⟩
  · show Dated c.db
    unfold Dated
    rw [(init_sameParams hinit).schedule, (init_sameParams hinit).params]
    intro r h hget
    simp only [Db.insertConsensusParams, Db.empty, SortedTable.get?_empty,
      SortedTable.get?_insert] at hget ⊢
    split at hget
    · exact Or.inl ⟨params, if_pos (Option.some.inj hget).symm⟩
    · cases hget
  · intro s _ _ p' _
    show c.db.getCurrentRound < _
    rw [ConsensusParams.coreApplyDelayBase]
    lia
  · rintro _ ⟨⟩
  · rintro _ ⟨⟩

variable [DecidableEq S] [Signing D S]

/-- In every run whose blocks are in reach when they are taken, the assertion holds
each time the app reaches it. -/
theorem assertionHolds_of_keepsUp [CollisionFree D] {ε : Type}
    {params : ConsensusParams D} {k : Option PeerPubkey}
    {pinned : Option (BlockRound × D)} {c : Consensus D S} {rest : M}
    {own : OwnVotes} {app : NodeApp D S M X} {ops : List (AppNodeOp D S)}
    (hinit : init params Db.empty k pinned = .ok c)
    (hstart : (NodeApp.start c rest own : Outcome ε _) = .ok app)
    (hops : Trail.Guarded (step E inits decode) KeepsUp (start app) ops) :
    NodeApp.AssertionHolds E inits (run E inits decode (start app) ops).app :=
  (hops.invariant (I := PaceInv) (fun _ op h hop => step_paceInv op h hop)
    (start_paceInv hinit hstart)).assertionHolds

end Runs

/-! ## A node that catches up with one peer -/

section Solo

/-- The app of a node that does not vote, in a federation of peer 10. -/
def soloApp : Outcome OpenError NodeApp.VoteApp := do
  let c ← init (plainParams [10]) (Db.empty : Db ListDigest PlainSig) none none
  NodeApp.start c () (.ctrlOnly none)

theorem soloApp_eq_ok {app : NodeApp.VoteApp} : soloApp = .ok app ↔
    ∃ c, init (plainParams [10]) (Db.empty : Db ListDigest PlainSig) none none =
      .ok c ∧ (NodeApp.start c () (.ctrlOnly none) : Outcome OpenError _) = .ok app :=
  Outcome.bind_eq_ok

/-- A payload lists the peers to vote in. -/
def decodeVotes (payload : BlockPayloadRaw) :
    Option (List (CItem (Option ConsensusCtrlCitem))) :=
  some (payload.map fun k =>
    .peerCItem ⟨ModuleId.consensusCtrl, some (.voteAddPeer k.toNat)⟩)

/-- A block of peer 10, notarized by it. -/
def soloBlock (prev : Option (BlockHeader ListDigest)) (round : BlockRound)
    (payload : BlockPayloadRaw) : WaitNotarizedBlockResponse ListDigest PlainSig :=
  ⟨notarizedBy [10] [0] (.build prev 0 round (plainParams [10]) payload), payload⟩

/-- The block of round 0 votes in peer 11. -/
def soloBlockZero : WaitNotarizedBlockResponse ListDigest PlainSig :=
  soloBlock none 0 [11]

/-- Peer 10 has notarized everything below a round. -/
def soloFinality (round : BlockRound) : AppNodeOp ListDigest PlainSig :=
  .recvFinality 10 ⟨round, Signing.sign 10 (SignMsg.finality (D := ListDigest) round)⟩

/-- The node takes the block of round 0, then a later one, and its app gets to the
vote in the first. -/
def catchUpOps (round : BlockRound) : List (AppNodeOp ListDigest PlainSig) :=
  [.app, .startRound, .recvNotarized soloBlockZero, .startRound,
    .recvNotarized (soloBlock (some soloBlockZero.block.inner) round []),
    soloFinality (round + 1), .app, .app, .app]

/-- The later block is of round 31. -/
theorem assertionHolds_at_round_31 : ∃ app, soloApp = .ok app ∧
    NodeApp.AssertionHolds Empty .empty
      (run Empty .empty decodeVotes (start app) (catchUpOps 31)).app := by
  have hrun : soloApp.Returns fun app => Trail.Guarded
      (step Empty .empty decodeVotes) KeepsUp (start app) (catchUpOps 31) := by
    decide +kernel
  obtain ⟨app, happ, hops⟩ := Outcome.returns_iff.mp hrun
  obtain ⟨c, hinit, hstart⟩ := soloApp_eq_ok.mp happ
  exact ⟨app, happ, assertionHolds_of_keepsUp hinit hstart hops⟩

/-- The later block is of round 32, after 31 dummy rounds. It takes the node to
round 33, where the params voted for in round 0 should apply. -/
theorem round_32_reaches_apply_round :
    ¬ ∀ (app : NodeApp.VoteApp) (ops : List (AppNodeOp ListDigest PlainSig)),
      soloApp = .ok app → NodeApp.AssertionHolds Empty .empty
        (run Empty .empty decodeVotes (start app) ops).app := by
  intro h
  have hrun : soloApp.Returns fun app => ¬ NodeApp.AssertionHolds Empty .empty
      (run Empty .empty decodeVotes (start app) (catchUpOps 32)).app := by
    decide +kernel
  obtain ⟨app, happ, hfails⟩ := Outcome.returns_iff.mp hrun
  exact hfails (h app (catchUpOps 32) happ)

end Solo

end AppNode

end Bfte
