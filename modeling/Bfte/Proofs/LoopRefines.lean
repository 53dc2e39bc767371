import Mathlib.Data.List.Perm.Basic
import Bfte.Proofs.RoundLoop

/-!
# The loop is a schedule of the node

`Node` leaves open when a task runs, and when its event is delivered. The round loop fixes
that: its tasks start with the round and are gone with it, and an event waits for its turn.
So everything the loop does a node may do, with the same consensus: what is proved of all
schedules of a node holds of the loop.

The events of a round that is over are the ones the node still has and the loop has not.
-/

namespace Bfte

variable {D S : Type} [LinearOrder D] [Hashing D] [DecidableEq S] [Signing D S]

/-- Everything a node hands to its consensus meets `P`. -/
def Node.Feeds (P : Consensus D S → ConsensusOp D S → Prop) (n : Node D S) :
    NodeOp D S → Prop
  | .recvVote i resp => P n.consensus (.vote i resp)
  | .recvNotarized resp => P n.consensus (.notarized resp)
  | .recvFinality k resp => P n.consensus (.finality k resp)
  | .deliver k => ∀ e ∈ n.events[k]?, P n.consensus (.vote e.peerIdx e.resp)
  | .paramsChange round timestamp peers =>
      P n.consensus (.paramsChange round timestamp peers)
  | .restart => P n.consensus .reopen
  | _ => True

namespace RoundLoop

open Consensus Node

variable {P : Consensus D S → ConsensusOp D S → Prop}

/-- Everything the loop hands to its consensus meets `P`. -/
def Feeds (P : Consensus D S → ConsensusOp D S → Prop) (l : RoundLoop D S) :
    RoundLoopOp D S → Prop
  | .joinNext n => ∀ R ∈ l.current, ∀ e ∈ R.events[n]?, P l.consensus (eventOp e)
  | .recvFinality k resp => P l.consensus (.finality k resp)
  | .paramsChange round timestamp peers =>
      P l.consensus (.paramsChange round timestamp peers)
  | .restart => P l.consensus .reopen
  | _ => True

instance [∀ c op, Decidable (P c op)] (l : RoundLoop D S) : ∀ op, Decidable (Feeds P l op)
  | .joinNext n => inferInstanceAs (Decidable (∀ R ∈ l.current, ∀ e ∈ R.events[n]?,
      P l.consensus (eventOp e)))
  | .recvFinality _ _ => inferInstanceAs (Decidable (P _ _))
  | .paramsChange _ _ _ => inferInstanceAs (Decidable (P _ _))
  | .restart => inferInstanceAs (Decidable (P _ _))
  | .startRound | .finishOwn _ _ _ | .finishVote _ _ | .finishNotarized _ _ =>
      .isTrue trivial

/-- A vote of the node itself. -/
def ownVote : TaskEvent D S → Option (RoundEvent D S)
  | .voteSelf e => some e
  | _ => none

/-- The votes of the node itself among the events. -/
def ownVotes (R : RunningRound D S) : List (RoundEvent D S) := R.events.filterMap ownVote

/-- Votes are asked of other peers. -/
structure AsksOthers (R : RunningRound D S) : Prop where
  tasks : ∀ i req, .requestVote i req ∈ R.tasks → R.seat.map Seat.idx ≠ some i
  events : ∀ e, .vote e ∈ R.events → R.seat.map Seat.idx ≠ some e.peerIdx

/-- The node is in the state of the loop, and has in flight what the loop has to handle. -/
structure Refines (l : RoundLoop D S) (n : Node D S) : Prop where
  consensus : n.consensus = l.consensus
  rounds : RoundInv l.consensus.db
  params : ParamsInv l.consensus
  running : ∀ R, l.running = some R → RunsOn l.consensus R ∧ AsksOthers R
  events : ∀ R ∈ l.current, (ownVotes R).Subperm n.events

variable {l : RoundLoop D S} {n : Node D S}
  {c : Consensus D S} {R : RunningRound D S}

/-! ## What is asked of whom -/

omit [DecidableEq S] [Signing D S] [LinearOrder D] [Hashing D] in
theorem mem_spawnVoteRequests {seat : Option (Seat D)} {round : BlockRound} {total : ℕ}
    {dummy nonDummy : VoteSet} {i : PeerIdx} {req : WaitVoteRequest}
    (h : .requestVote i req ∈
      RunningRound.spawnVoteRequests seat round total dummy nonDummy) :
    seat.map Seat.idx ≠ some i := by
  obtain ⟨j, _, htask⟩ := List.mem_filterMap.mp h
  split at htask
  · cases htask
  · next hne =>
      split at htask
      · cases htask
      · cases htask
        exact hne

omit [DecidableEq S] [Signing D S] in
theorem start_asksOthers (h : RunningRound.start c = .ok R) : AsksOthers R := by
  obtain ⟨_, _, _, _, hevents, _, _⟩ := start_ok h
  refine ⟨fun i req htask => ?_, fun e he => ?_⟩
  · simp only [RunningRound.start, Outcome.bind_eq_ok, Outcome.pure_eq_ok] at h
    obtain ⟨params, _, seat, _, leader, _, num, _, nreq, _, rfl⟩ := h
    simp only [List.mem_append] at htask
    rcases htask with (((hproposal | hvote) | hrequest) | hnotarized) | htimeout
    · unfold RunningRound.spawnGenerateProposal at hproposal
      split at hproposal
      · split at hproposal
        · split at hproposal <;> simp at hproposal
        · cases hproposal
      · cases hproposal
    · unfold RunningRound.spawnVoteProposal at hvote
      split at hvote
      · split at hvote <;> simp at hvote
      · cases hvote
    · exact mem_spawnVoteRequests hrequest
    · obtain ⟨j, _, hj⟩ := List.mem_filterMap.mp hnotarized
      split at hj <;> cases hj
    · unfold RunningRound.spawnTimeoutVote at htimeout
      split at htimeout
      · split at htimeout <;> simp at htimeout
      · cases htimeout
  · rw [hevents] at he
    cases he

omit [LinearOrder D] [Hashing D] [DecidableEq S] [Signing D S] in
/-- A task is through, and an event of a vote is that of a request. -/
theorem AsksOthers.finish {m : ℕ} {e : TaskEvent D S} (h : AsksOthers R)
    (hvote : ∀ e', e = .vote e' → R.seat.map Seat.idx ≠ some e'.peerIdx) :
    AsksOthers (R.finish m e) where
  tasks i req htask := h.tasks i req (List.mem_of_mem_eraseIdx htask)
  events e' he' := by
    rcases List.mem_append.mp he' with hold | hnew
    · exact h.events e' hold
    · exact hvote e' (List.mem_singleton.mp hnew).symm

omit [DecidableEq S] [Signing D S] in
/-- After an answer the same peer is asked. -/
theorem AsksOthers.handle {m : ℕ} {e : TaskEvent D S} (h : AsksOthers R)
    (he : R.events[m]? = some e) :
    AsksOthers { R with
      tasks := R.tasks ++ respawn R.round e
      events := R.events.eraseIdx m } where
  tasks i req htask := by
    rcases List.mem_append.mp htask with hold | hnew
    · exact h.tasks i req hold
    · unfold respawn at hnew
      split at hnew
      · next e' =>
          split at hnew
          · cases hnew
          · cases List.mem_singleton.mp hnew
            exact h.events e' (List.mem_of_getElem? he)
      · cases hnew
  events e' he' := h.events e' (List.mem_of_mem_eraseIdx he')

/-! ## Own votes -/

omit [LinearOrder D] [Hashing D] [DecidableEq S] [Signing D S] in
theorem ownVotes_finish {m : ℕ} {e : TaskEvent D S} (hvote : ∀ e', e ≠ .voteSelf e') :
    ownVotes (R.finish m e) = ownVotes R := by
  unfold ownVotes RunningRound.finish
  rw [List.filterMap_append]
  cases e with
  | voteSelf e => exact absurd rfl (hvote e)
  | vote e => exact List.append_nil _
  | notarized i resp => exact List.append_nil _

omit [LinearOrder D] [Hashing D] [DecidableEq S] [Signing D S] in
theorem ownVotes_finish_self {m : ℕ} {e : RoundEvent D S} :
    ownVotes (R.finish m (.voteSelf e)) = ownVotes R ++ [e] := by
  unfold ownVotes RunningRound.finish
  rw [List.filterMap_append]
  rfl

/-! ## The consensus takes a step -/

omit [DecidableEq S] [Signing D S] in
/-- No round is run. -/
theorem refines_idle (hn : n.consensus = c) (hround : RoundInv c.db)
    (hparams : ParamsInv c) : Refines ⟨c, none⟩ n where
  consensus := hn
  rounds := hround
  params := hparams
  running R hR := by cases hR
  events R hR := by cases (mem_current.mp hR).1

omit [DecidableEq S] [Signing D S] in
theorem Refines.cur_eq (h : Refines l n) (hR : R ∈ l.current) :
    l.running = some R ∧ l.consensus.db.getCurrentRound = R.round := by
  obtain ⟨hrun, hcur⟩ := mem_current.mp hR
  rw [h.params.channel] at hcur
  exact ⟨hrun, hcur⟩

omit [DecidableEq S] [Signing D S] in
theorem Refines.running_current (h : Refines l n) (hrun : l.running = some R)
    (hcur : l.consensus.db.getCurrentRound = R.round) : R ∈ l.current := by
  refine mem_current.mpr ⟨hrun, ?_⟩
  rw [h.params.channel]
  exact hcur

/-- Both take the same step of the consensus. The round that is run after it was run
before it. -/
theorem Refines.advance [CollisionFree D] (h : Refines l n) (op : ConsensusOp D S)
    {running : Option (RunningRound D S)} {n' : Node D S}
    (hn : n'.consensus = n.consensus.step op)
    (hrun : ∀ R, running = some R → RunsOn l.consensus R ∧ AsksOthers R)
    (hevents : ∀ R, running = some R → l.consensus.db.getCurrentRound = R.round →
      (ownVotes R).Subperm n'.events) : Refines ⟨l.consensus.step op, running⟩ n' := by
  have hparams : ParamsInv (l.consensus.step op) :=
    step_paramsInv l.consensus op h.rounds h.params
  refine ⟨?_, step_roundInv l.consensus op h.rounds, hparams, fun R hR => ?_,
    fun R hR => ?_⟩
  · rw [hn, h.consensus]
  · obtain ⟨hruns, hasks⟩ := hrun R hR
    exact ⟨hruns.step op h.rounds h.params, hasks⟩
  · obtain ⟨hsome, hcur⟩ := mem_current.mp hR
    rw [hparams.channel] at hcur
    have hle : (l.consensus.step op).db.getCurrentRound ≤
        l.consensus.db.getCurrentRound := by
      rw [hcur]
      exact (hrun R hsome).1.round_le
    have hge := (step_onward l.consensus op h.rounds).cur_le
    exact hevents R hsome (le_antisymm hge hle |>.trans hcur)

theorem deliver_fields (n : Node D S) (e : RoundEvent D S) :
    (n.deliver e).consensus = n.consensus.step (.vote e.peerIdx e.resp) ∧
      (n.deliver e).events = n.events := by
  unfold Node.deliver Consensus.step Consensus.commit
  dsimp only
  cases n.consensus.processVoteResponseTx e.peerIdx e.resp <;> exact ⟨rfl, rfl⟩

/-! ## One op of the loop -/

/-- The op of a node that runs a task of its own. -/
def taskOp (payload : BlockPayloadRaw) (now : Timestamp) : RoundTask → NodeOp D S
  | .generateProposal => .proposalTask payload now
  | .voteProposal => .voteTask
  | _ => .timeoutTask

/-- In the round itself, the node has the event that the loop has. -/
theorem step_taskOp (h : Refines l n) (hR : R ∈ l.current) {s : Seat D}
    (hs : R.seat = some s) {payload : BlockPayloadRaw} {now : Timestamp}
    {task : RoundTask} {e : RoundEvent D S}
    (hev : RunningRound.ownEvent l.consensus s payload now task = .ok (some e)) :
    n.step (taskOp payload now task) = { n with events := n.events ++ [e] } := by
  obtain ⟨hrun, hcur⟩ := h.cur_eq hR
  have hseat : (Node.seat n.consensus : Outcome Empty _) = .ok (some s) := by
    rw [h.consensus, (h.running R hrun).1.seat_eq hcur, hs]
  rw [← h.consensus] at hev
  have hspawn : ∀ run : Seat D → Outcome Empty (Option (RoundEvent D S)),
      run s = .ok (some e) → n.spawn run = { n with events := n.events ++ [e] } := by
    intro run hok
    unfold Node.spawn
    rw [hseat, Outcome.bind_of_ok rfl]
    dsimp only
    rw [hok]
  cases task with
  | generateProposal => exact hspawn _ hev
  | voteProposal => exact hspawn _ hev
  | timeoutVote => exact hspawn _ hev
  | requestVote i req => cases hev
  | requestNotarized i req => cases hev

omit [DecidableEq S] [Signing D S] in
/-- A task is through. -/
theorem Refines.finish {m : ℕ} {e : TaskEvent D S} (h : Refines l n)
    (hrun : l.running = some R)
    (hvote : ∀ e', e = .vote e' → R.seat.map Seat.idx ≠ some e'.peerIdx) {n' : Node D S}
    (hn : n'.consensus = n.consensus)
    (hevents : R ∈ l.current → (ownVotes (R.finish m e)).Subperm n'.events) :
    Refines { l with running := some (R.finish m e) } n' where
  consensus := hn.trans h.consensus
  rounds := h.rounds
  params := h.params
  running R' hR' := by
    cases hR'
    obtain ⟨hruns, hasks⟩ := h.running R hrun
    exact ⟨⟨hruns.scheduled, hruns.round_le, hruns.seat⟩, hasks.finish hvote⟩
  events R' hR' := by
    obtain ⟨hsome, hcur⟩ := mem_current.mp hR'
    cases hsome
    exact hevents (mem_current.mpr ⟨hrun, hcur⟩)

/-- An event is handled. -/
theorem Refines.handle [CollisionFree D] {m : ℕ} {e : TaskEvent D S} (h : Refines l n)
    (hR : R ∈ l.current) (he : R.events[m]? = some e) {n' : Node D S}
    (hn : n'.consensus = n.consensus.step (eventOp e))
    (hevents : (ownVotes { R with events := R.events.eraseIdx m }).Subperm n'.events) :
    Refines (l.handle R m e) n' := by
  obtain ⟨hrun, _⟩ := h.cur_eq hR
  obtain ⟨hruns, hasks⟩ := h.running R hrun
  refine h.advance (eventOp e) hn (fun R' hR' => ?_) (fun R' hR' _ => ?_)
  · cases hR'
    exact ⟨⟨hruns.scheduled, hruns.round_le, hruns.seat⟩, hasks.handle he⟩
  · cases hR'
    exact hevents

omit [LinearOrder D] [Hashing D] [DecidableEq S] [Signing D S] in
theorem ownVotes_erase {m : ℕ} :
    (ownVotes { R with events := R.events.eraseIdx m }).Subperm (ownVotes R) :=
  ((List.eraseIdx_sublist R.events m).filterMap _).subperm

omit [DecidableEq S] [Signing D S] in
theorem Refines.ourPeerIdx_eq (h : Refines l n) (hR : R ∈ l.current) :
    ourPeerIdx n.consensus = R.seat.map Seat.idx := by
  obtain ⟨hrun, hcur⟩ := h.cur_eq hR
  unfold ourPeerIdx
  rw [h.consensus, (h.running R hrun).1.seat_eq hcur]
  cases R.seat <;> rfl

omit [LinearOrder D] [Hashing D] [DecidableEq S] [Signing D S] in
theorem perm_cons_eraseIdx {α : Type} {as : List α} {m : ℕ} {a : α}
    (h : as[m]? = some a) : (a :: as.eraseIdx m).Perm as := by
  obtain ⟨hlt, rfl⟩ := List.getElem?_eq_some_iff.mp h
  exact List.getElem_cons_eraseIdx_perm hlt

omit [LinearOrder D] [Hashing D] [DecidableEq S] [Signing D S] in
/-- An own vote that the loop handles is in flight, and the others stay so. -/
theorem ownVotes_delivered {events : List (RoundEvent D S)} {m : ℕ} {e : RoundEvent D S}
    (hsub : (ownVotes R).Subperm events) (he : R.events[m]? = some (.voteSelf e)) :
    ∃ k, events[k]? = some e ∧ (ownVotes { R with
      events := R.events.eraseIdx m }).Subperm (events.eraseIdx k) := by
  have hperm : (e :: ownVotes { R with events := R.events.eraseIdx m }).Perm
      (ownVotes R) := (perm_cons_eraseIdx he).filterMap ownVote
  have hall := hperm.subperm.trans hsub
  obtain ⟨k, hk⟩ := List.mem_iff_getElem?.mp (hall.subset List.mem_cons_self)
  exact ⟨k, hk, (List.subperm_cons e).mp
    (hall.trans (perm_cons_eraseIdx hk).symm.subperm)⟩

/-- A turn of the loop. -/
theorem joinNext_refines [CollisionFree D] {m : ℕ} {e : TaskEvent D S} (h : Refines l n)
    (hR : R ∈ l.current) (he : R.events[m]? = some e) (hP : P n.consensus (eventOp e)) :
    ∃ ops, Trail.Guarded Node.step (Node.Feeds P) n ops ∧
      Refines (l.handle R m e) (n.run ops) := by
  obtain ⟨hrun, _⟩ := h.cur_eq hR
  have herase : (ownVotes { R with events := R.events.eraseIdx m }).Subperm n.events :=
    ownVotes_erase.trans (h.events R hR)
  cases e with
  | vote e =>
      have hother : ourPeerIdx n.consensus ≠ some e.peerIdx := by
        rw [h.ourPeerIdx_eq hR]
        exact (h.running R hrun).2.events e (List.mem_of_getElem? he)
      have hstep : n.step (.recvVote e.peerIdx e.resp) =
          { n with consensus := n.consensus.step (.vote e.peerIdx e.resp) } := by
        rw [Node.step, if_neg hother]
      refine ⟨[.recvVote e.peerIdx e.resp], ⟨hP, trivial⟩, ?_⟩
      rw [Node.run, Trail.run_cons, Trail.run_nil, hstep]
      exact h.handle hR he rfl herase
  | notarized i resp =>
      exact ⟨[.recvNotarized resp], ⟨hP, trivial⟩, h.handle hR he rfl herase⟩
  | voteSelf e =>
      obtain ⟨k, hk, hrest⟩ := ownVotes_delivered (h.events R hR) he
      have hstep : n.step (.deliver k) =
          ({ n with events := n.events.eraseIdx k } : Node D S).deliver e := by
        rw [Node.step, hk]
      obtain ⟨hcons, hevents⟩ :=
        deliver_fields ({ n with events := n.events.eraseIdx k } : Node D S) e
      refine ⟨[.deliver k], ⟨fun e' he' => ?_, trivial⟩, ?_⟩
      · cases hk.symm.trans he'
        exact hP
      · rw [Node.run, Trail.run_cons, Trail.run_nil, hstep]
        refine h.handle hR he hcons ?_
        rw [hevents]
        exact hrest

/-- What the loop does in one op, a node may do. -/
theorem step_refines [CollisionFree D] (l : RoundLoop D S) (op : RoundLoopOp D S)
    (n : Node D S) (h : Refines l n) (hP : Feeds P l op) :
    ∃ ops, Trail.Guarded Node.step (Node.Feeds P) n ops ∧
      Refines (l.step op) (n.run ops) := by
  cases op with
  | startRound =>
      refine ⟨[], trivial, ?_⟩
      unfold step
      dsimp only
      split
      · next R hrun hR =>
          refine ⟨h.consensus, h.rounds, h.params, fun R' hR' => ?_, fun R' hR' => ?_⟩
          · cases hR'
            exact ⟨start_runsOn hR, start_asksOthers hR⟩
          · obtain ⟨_, _, _, _, hevents, _, _⟩ := start_ok hR
            obtain ⟨hsome, _⟩ := mem_current.mp hR'
            cases hsome
            unfold ownVotes
            rw [hevents]
            exact List.nil_subperm
      · exact h
  | finishOwn m payload now =>
      unfold step
      dsimp only
      split
      · next R hrun =>
          split
          · next task s htask hs =>
              split
              · next e hev =>
                  by_cases hcur : R ∈ l.current
                  · refine ⟨[taskOp payload now task], ⟨?_, trivial⟩, ?_⟩
                    · cases task <;> exact trivial
                    · rw [Node.run, Trail.run_cons, Trail.run_nil,
                        step_taskOp h hcur hs hev]
                      refine h.finish hrun ?_ rfl fun _ => ?_
                      · intro e' he'
                        cases he'
                      · rw [ownVotes_finish_self]
                        exact (List.subperm_append_right _).mpr (h.events R hcur)
                  · refine ⟨[], trivial, h.finish hrun ?_ rfl fun hR => absurd hR hcur⟩
                    intro e' he'
                    cases he'
              · exact ⟨[], trivial, h⟩
          · exact ⟨[], trivial, h⟩
      · exact ⟨[], trivial, h⟩
  | finishVote m resp =>
      refine ⟨[], trivial, ?_⟩
      unfold step
      dsimp only
      split
      · next R hrun =>
          split
          · next i req htask =>
              refine h.finish hrun ?_ rfl fun hcur => ?_
              · rintro e ⟨⟩
                exact (h.running R hrun).2.tasks i req (List.mem_of_getElem? htask)
              · have hsame : ownVotes (R.finish m (.vote ⟨i, resp⟩)) = ownVotes R :=
                  ownVotes_finish fun e' he' => by cases he'
                rw [hsame]
                exact h.events R hcur
          · exact h
      · exact h
  | finishNotarized m resp =>
      refine ⟨[], trivial, ?_⟩
      unfold step
      dsimp only
      split
      · next R hrun =>
          split
          · next i req htask =>
              have hsame : ownVotes (R.finish m (.notarized i resp)) = ownVotes R :=
                ownVotes_finish fun e' he' => by cases he'
              refine h.finish hrun ?_ rfl fun hcur => ?_
              · intro e' he'
                cases he'
              · rw [hsame]
                exact h.events R hcur
          · exact h
      · exact h
  | joinNext m =>
      unfold step
      dsimp only
      split
      · next R hR =>
          split
          · next e he =>
              have hfed : P n.consensus (eventOp e) := by
                rw [h.consensus]
                exact hP R hR e he
              exact joinNext_refines h hR he hfed
          · exact ⟨[], trivial, h⟩
      · next hnone =>
          exact ⟨[], trivial, refines_idle h.consensus h.rounds h.params⟩
  | recvFinality k resp =>
      by_cases hkey : l.consensus.ourPeerPubkey = some k
      · refine ⟨[], trivial, ?_⟩
        unfold step
        dsimp only
        rw [if_pos hkey]
        exact h
      · refine ⟨[.recvFinality k resp], ⟨?_, trivial⟩, ?_⟩
        · show P n.consensus _
          rw [h.consensus]
          exact hP
        · unfold step
          dsimp only
          rw [if_neg hkey]
          rw [← h.consensus] at hkey
          refine h.advance (.finality k resp) ?_ h.running fun R hrun hcur => ?_
          · rw [Node.run, Trail.run_cons, Node.step, if_neg hkey]
            rfl
          · rw [Node.run, Trail.run_cons, Trail.run_nil, Node.step, if_neg hkey]
            exact h.events R (h.running_current hrun hcur)
  | paramsChange round timestamp peers =>
      refine ⟨[.paramsChange round timestamp peers], ⟨?_, trivial⟩, ?_⟩
      · show P n.consensus _
        rw [h.consensus]
        exact hP
      · exact h.advance (.paramsChange round timestamp peers) rfl h.running fun R hrun hcur =>
          h.events R (h.running_current hrun hcur)
  | restart =>
      refine ⟨[.restart], ⟨?_, trivial⟩, ?_⟩
      · show P n.consensus _
        rw [h.consensus]
        exact hP
      · exact h.advance .reopen rfl (fun R hR => by cases hR) fun R hR => by cases hR

/-- Every run of the round loop is a run of the node, with the same consensus at the end
of it and fed with the same; the own votes the loop has not handled yet are in flight. -/
theorem refines_node [CollisionFree D] {params : ConsensusParams D}
    {key : Option PeerPubkey} {pinned : Option (BlockRound × D)}
    (hinit : Consensus.init params Db.empty key pinned = .ok c)
    {ops : List (RoundLoopOp D S)} (hops : Trail.Guarded step (Feeds P) ⟨c, none⟩ ops) :
    ∃ nodeOps, Trail.Guarded Node.step (Node.Feeds P) (.start c) nodeOps ∧
      (Node.run (.start c) nodeOps).consensus = (run ⟨c, none⟩ ops).consensus ∧
      ∀ R ∈ (run ⟨c, none⟩ ops).current,
        (ownVotes R).Subperm (Node.run (.start c) nodeOps).events := by
  have hstart : Refines ⟨c, none⟩ (.start c) :=
    refines_idle rfl (init_roundInv hinit) (init_paramsInv hinit)
  obtain ⟨nodeOps, hguard, hrefines⟩ := hops.simulate step_refines hstart
  exact ⟨nodeOps, hguard, hrefines.consensus, hrefines.events⟩

/-- The peer that gives up on the first round, as a node. -/
theorem giving_up_refines : ∃ (c : Consensus ListDigest PlainSig)
    (nodeOps : List (NodeOp ListDigest PlainSig)),
    Consensus.init (plainParams [10, 11, 12, 13]) Db.empty (some 10) none = .ok c ∧
      Trail.Guarded Node.step (Node.Feeds BelowLast) (.start c) nodeOps ∧
      (Node.run (.start c) nodeOps).consensus.db.getNumVotesDummy 0 = 2 := by
  have hrun : (Consensus.init (plainParams [10, 11, 12, 13])
      (Db.empty : Db ListDigest PlainSig) (some 10) none).Returns fun c =>
        Trail.Guarded step (Feeds BelowLast) ⟨c, none⟩ givingUpOps ∧
        (run ⟨c, none⟩ givingUpOps).consensus.db.getNumVotesDummy 0 = 2 := by
    decide +kernel
  obtain ⟨c, hinit, hops, hvotes⟩ := Outcome.returns_iff.mp hrun
  obtain ⟨nodeOps, hguard, hsame, _⟩ := refines_node hinit hops
  refine ⟨c, nodeOps, hinit, hguard, ?_⟩
  rw [hsame]
  exact hvotes

end RoundLoop

end Bfte
