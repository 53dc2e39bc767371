import Bfte.App.CtrlModule
import Bfte.Proofs.FormerMembers

/-!
# What a node proposes and what it accepts

A node proposes the votes that are pending, are still about something, and have not
been cast. Most of them it would accept itself, since the checks are the same. The
last peer is the exception: its removal is refused when it is asked for and refused
when it is voted on, but a vote that was pending before goes on being proposed. And
with more peers than can be counted no vote about peers is accepted at all.

An accepted vote is not pending any more, so it is proposed again only when it is
asked for again.
-/

namespace Bfte

namespace CtrlModule

/-- The node wants to cast the vote. -/
def Pending (m : CtrlModule) : ConsensusCtrlCitem → Prop
  | .voteAddPeer peer => m.pendingAddPeerVote = some peer
  | .voteRemovePeer peer => m.pendingRemovePeerVote = some peer
  | .voteAddModule kind version => m.pendingAddModuleVote = some (kind, version)
  | .voteModuleVersion id minor => m.pendingModulesVersionsVotes.get? id = some minor

/-- The op asks for the vote. The inits ask for the highest minor version they support
of what each module is configured as. -/
def Asks (m : CtrlModule) : CtrlModuleOp → ConsensusCtrlCitem → Prop
  | .setPendingAddPeerVote peer, .voteAddPeer peer' => peer = peer'
  | .setPendingRemovePeerVote peer, .voteRemovePeer peer' => peer = peer'
  | .setPendingAddModuleVote kind version, .voteAddModule kind' version' =>
      kind = kind' ∧ version = version'
  | .recordModuleInitVersions supported, .voteModuleVersion id minor =>
      ∃ config versions, m.db.modulesConfigs.get? id = some config ∧
        supported.get? config.kind = some versions ∧
        versions.get? config.version.major = some minor
  | _, _ => False

/-- The vote is still to be cast by the peer. -/
def Open (m : CtrlModule) (k : PeerPubkey) : ConsensusCtrlCitem → Prop
  | .voteAddPeer peer => m.db.getPeerSet.contains peer = false ∧
      m.db.addPeerVotes.get? k ≠ some peer
  | .voteRemovePeer peer => m.db.getPeerSet.contains peer = true ∧
      m.db.removePeerVotes.get? k ≠ some peer
  | .voteAddModule kind version => m.moduleAlreadyExists kind = false ∧
      ¬ CtrlDb.VotesFor m.db k kind version.major
  | .voteModuleVersion id minor => ¬ CtrlDb.Stands m.db k (.voteModuleVersion id minor)

variable {m m' : CtrlModule} {k : PeerPubkey}

theorem mem_proposeAddPeer {vote : ConsensusCtrlCitem} :
    vote ∈ m.proposeAddPeer k ↔
      ∃ peer, vote = .voteAddPeer peer ∧ Pending m vote ∧ Open m k vote := by
  unfold proposeAddPeer
  constructor
  · intro h
    split at h
    · next pending hpending =>
        obtain ⟨hopen, hvote⟩ := List.mem_ite_nil_right.mp h
        obtain rfl := List.mem_singleton.mp hvote
        exact ⟨pending, rfl, hpending, hopen⟩
    · cases h
  · rintro ⟨peer, rfl, hpending, hopen⟩
    rw [show m.pendingAddPeerVote = some peer from hpending]
    dsimp only
    rw [if_pos (show _ ∧ _ from hopen)]
    exact List.mem_singleton_self _

theorem mem_proposeRemovePeer {vote : ConsensusCtrlCitem} :
    vote ∈ m.proposeRemovePeer k ↔
      ∃ peer, vote = .voteRemovePeer peer ∧ Pending m vote ∧ Open m k vote := by
  unfold proposeRemovePeer
  constructor
  · intro h
    split at h
    · next pending hpending =>
        obtain ⟨hopen, hvote⟩ := List.mem_ite_nil_right.mp h
        obtain rfl := List.mem_singleton.mp hvote
        exact ⟨pending, rfl, hpending, hopen⟩
    · cases h
  · rintro ⟨peer, rfl, hpending, hopen⟩
    rw [show m.pendingRemovePeerVote = some peer from hpending]
    dsimp only
    rw [if_pos (show _ ∧ _ from hopen)]
    exact List.mem_singleton_self _

theorem mem_proposeAddModule {vote : ConsensusCtrlCitem} :
    vote ∈ m.proposeAddModule k ↔ ∃ kind version, vote = .voteAddModule kind version ∧
      Pending m vote ∧ Open m k vote := by
  have hcast : ∀ (kind : ModuleKind) (version : ConsensusVersion),
      m.shouldProposeAddModule k kind version = true ↔
        ¬ CtrlDb.VotesFor m.db k kind version.major := by
    intro kind version
    unfold shouldProposeAddModule CtrlDb.VotesFor
    cases m.db.addModuleVotes.get? k with
    | none => simp
    | some current =>
        obtain ⟨currentKind, currentVersion⟩ := current
        simp only [decide_eq_true_eq, Option.some.injEq, Prod.mk.injEq]
        constructor
        · rintro hne ⟨v, ⟨rfl, rfl⟩, hmajor⟩
          exact hne.elim (fun h => h rfl) fun h => h hmajor
        · intro hnot
          by_contra hsame
          push Not at hsame
          exact hnot ⟨currentVersion, ⟨hsame.1, rfl⟩, hsame.2⟩
  unfold proposeAddModule
  constructor
  · intro h
    split at h
    · next kind version hpending =>
        obtain ⟨hopen, hvote⟩ := List.mem_ite_nil_right.mp h
        obtain rfl := List.mem_singleton.mp hvote
        exact ⟨kind, version, rfl, hpending, hopen.1, (hcast _ _).mp hopen.2⟩
    · cases h
  · rintro ⟨kind, version, rfl, hpending, hfree, hnot⟩
    rw [show m.pendingAddModuleVote = some (kind, version) from hpending]
    dsimp only
    rw [if_pos ⟨hfree, (hcast kind version).mpr hnot⟩]
    exact List.mem_singleton_self _

theorem mem_proposeModuleVersions {vote : ConsensusCtrlCitem} :
    vote ∈ m.proposeModuleVersions k ↔ ∃ id minor, vote = .voteModuleVersion id minor ∧
      Pending m vote ∧ Open m k vote := by
  unfold proposeModuleVersions
  rw [List.mem_filterMap]
  constructor
  · rintro ⟨⟨id, minor⟩, hmem, hvote⟩
    dsimp only at hvote
    split at hvote
    · cases hvote
    · next hopen =>
        cases hvote
        exact ⟨id, minor, rfl, SortedTable.mem_entries.mp hmem, hopen⟩
  · rintro ⟨id, minor, rfl, hpending, hopen⟩
    exact ⟨(id, minor), SortedTable.mem_entries.mpr hpending, if_neg hopen⟩

/-- A node proposes what is pending and still to be cast. -/
theorem mem_refreshConsensusProposals (hkey : m.peerPubkey = some k)
    {vote : ConsensusCtrlCitem} :
    vote ∈ m.refreshConsensusProposals ↔ Pending m vote ∧ Open m k vote := by
  unfold refreshConsensusProposals
  rw [hkey]
  simp only [List.mem_append, mem_proposeAddPeer, mem_proposeRemovePeer,
    mem_proposeAddModule, mem_proposeModuleVersions]
  cases vote <;> simp

/-! ## What a node accepts -/

/-- A vote of a member goes through where there is something to vote on, and where
the members can be counted if they have to be. -/
theorem processCitem_isOk {inits : ModulesInits} {db : CtrlDb} {s : PeerSet}
    (hk : s.contains k = true) (vote : ConsensusCtrlCitem) :
    (∃ res, db.processCitem inits k s (some vote) = .ok res) ↔
      match vote with
      | .voteAddPeer peer => db.getPeerSet.contains peer = false ∧ s.len ≤ 255
      | .voteRemovePeer peer => db.getPeerSet.contains peer = true ∧
          db.getPeerSet.len ≠ 1 ∧
          (db.removePeerVotes.get? k = some peer ∨ s.len ≤ 255)
      | .voteAddModule kind _ => CtrlDb.Admits inits db kind
      | .voteModuleVersion id _ => (db.modulesConfigs.get? id).isSome = true := by
  rw [CtrlDb.processCitem_of_member hk]
  cases vote with
  | voteAddPeer peer =>
      dsimp only [CtrlDb.processCitemVoteAddPeer]
      constructor
      · rintro ⟨res, h⟩
        simp only [Outcome.bind_eq_ok, Outcome.ensure_eq_ok, toNumPeers_eq_ok] at h
        obtain ⟨_, hnot, _, ⟨hsize, _⟩, _⟩ := h
        exact ⟨hnot, hsize⟩
      · rintro ⟨hnot, hsize⟩
        rw [Outcome.bind_of_ok (Outcome.ensure_of hnot),
          Outcome.bind_of_ok (toNumPeers_of_le hsize)]
        split <;> exact ⟨_, rfl⟩
  | voteRemovePeer peer =>
      dsimp only [CtrlDb.processCitemVoteRemovePeer]
      constructor
      · rintro ⟨res, h⟩
        simp only [Outcome.bind_eq_ok, Outcome.ensure_eq_ok] at h
        obtain ⟨_, hin, _, hlast, h⟩ := h
        refine ⟨hin, hlast, ?_⟩
        split at h
        · next hsame => exact Or.inl hsame
        · simp only [Outcome.bind_eq_ok, toNumPeers_eq_ok] at h
          obtain ⟨_, ⟨hsize, _⟩, _⟩ := h
          exact Or.inr hsize
      · rintro ⟨hin, hlast, hcounted⟩
        rw [Outcome.bind_of_ok (Outcome.ensure_of hin),
          Outcome.bind_of_ok (Outcome.ensure_of hlast)]
        split
        · exact ⟨_, rfl⟩
        · next hnew =>
            rw [Outcome.bind_of_ok (toNumPeers_of_le (hcounted.resolve_left hnew))]
            split <;> exact ⟨_, rfl⟩
  | voteAddModule kind version => exact CtrlDb.processCitemVoteAddModule_isOk hk
  | voteModuleVersion id minor =>
      dsimp only [CtrlDb.processCitemVoteModuleVersion]
      rw [Outcome.bind_of_ok (Outcome.ensure_of hk)]
      cases db.modulesConfigs.get? id with
      | none =>
          refine iff_of_false ?_ Bool.false_ne_true
          intro hok
          obtain ⟨_, h⟩ := hok
          cases h
      | some config => exact iff_of_true ⟨_, rfl⟩ rfl

/-! ## One step -/

variable {op : CtrlModuleOp}

/-- There is something the vote can be about. -/
def Votable (m : CtrlModule) : ConsensusCtrlCitem → Prop
  | .voteAddModule kind _ => (m.modulesInits.get? kind).isSome = true
  | .voteModuleVersion id _ => (m.db.modulesConfigs.get? id).isSome = true
  | _ => True

theorem clearPending_inits (m : CtrlModule) (voter : PeerPubkey)
    (vote : ConsensusCtrlCitem) :
    (m.clearPending voter vote).modulesInits = m.modulesInits ∧
      (m.clearPending voter vote).peerPubkey = m.peerPubkey := by
  exact ⟨rfl, rfl⟩

/-- Nothing becomes pending by being cleared. -/
theorem pending_of_clearPending {voter : PeerPubkey} {vote vote' : ConsensusCtrlCitem}
    (h : Pending (m.clearPending voter vote) vote') : Pending m vote' := by
  unfold clearPending PendingVotes.clear at h
  cases vote with
  | voteAddPeer peer =>
      dsimp only at h
      split_ifs at h
      · cases vote' with
        | voteAddPeer => cases h
        | voteRemovePeer | voteAddModule | voteModuleVersion => exact h
      · exact h
  | voteRemovePeer peer =>
      dsimp only at h
      split_ifs at h
      · exact h
      · cases vote' with
        | voteRemovePeer => cases h
        | voteAddPeer | voteAddModule | voteModuleVersion => exact h
      · exact h
  | voteAddModule kind version =>
      dsimp only at h
      split_ifs at h
      · cases vote' with
        | voteAddModule => cases h
        | voteAddPeer | voteRemovePeer | voteModuleVersion => exact h
      · exact h
  | voteModuleVersion id minor =>
      dsimp only at h
      split_ifs at h
      · cases vote' with
        | voteModuleVersion id' minor' =>
            rw [Pending, SortedTable.get?_remove] at h
            split_ifs at h
            exact h
        | voteAddPeer | voteRemovePeer | voteAddModule => exact h
      · exact h

/-- A vote the node has cast itself is not pending any more. -/
theorem not_pending_clearPending (hkey : m.peerPubkey = some k)
    {vote : ConsensusCtrlCitem} (hopen : Open m k vote) :
    ¬ Pending (m.clearPending k vote) vote := by
  intro h
  cases vote with
  | voteAddPeer peer =>
      dsimp only [clearPending, PendingVotes.clear] at h
      rw [if_pos hkey.symm] at h
      cases h
  | voteRemovePeer peer =>
      dsimp only [clearPending, PendingVotes.clear] at h
      rw [if_neg hopen.2, if_pos hkey.symm] at h
      cases h
  | voteAddModule kind version =>
      dsimp only [clearPending, PendingVotes.clear] at h
      rw [if_pos hkey.symm] at h
      cases h
  | voteModuleVersion id minor =>
      dsimp only [clearPending, PendingVotes.clear] at h
      rw [if_pos hkey.symm, Pending, SortedTable.get?_remove, if_pos rfl] at h
      cases h

theorem processCitem_ok {voter : PeerPubkey} {s : PeerSet}
    {citem : Option ConsensusCtrlCitem} {effects : List CtrlEffect}
    (h : m.processCitem voter s citem = .ok (m', effects)) :
    ∃ vote, citem = some vote ∧
      m.db.processCitem m.modulesInits voter s citem = .ok (m'.db, effects) ∧
      m'.modulesInits = m.modulesInits ∧ m'.peerPubkey = m.peerPubkey ∧
      ∀ vote', Pending m' vote' ↔ Pending (m.clearPending voter vote) vote' := by
  simp only [processCitem, Outcome.bind_eq_ok, Outcome.pure_eq_ok] at h
  obtain ⟨⟨db, told⟩, hok, h⟩ := h
  obtain ⟨_, vote, rfl, _⟩ := CtrlDb.processCitem_cases hok
  obtain ⟨hinits, hkey⟩ := clearPending_inits m voter vote
  cases h
  exact ⟨vote, rfl, hok, hinits, hkey, fun vote' => by cases vote' <;> exact Iff.rfl⟩

/-- The versions that are recorded are those supported of the modules of the list. -/
theorem recordVersions_get? {supported : SortedTable ModuleKind (SortedTable ℕ ℕ)}
    {l : List (ModuleId × ModuleConfig)} {pending pending' : SortedTable ModuleId ℕ}
    (h : recordVersions supported pending l = .ok pending') {id : ModuleId} {minor : ℕ}
    (hget : pending'.get? id = some minor) :
    pending.get? id = some minor ∨ ∃ config versions, (id, config) ∈ l ∧
      supported.get? config.kind = some versions ∧
      versions.get? config.version.major = some minor := by
  induction l generalizing pending with
  | nil =>
      cases h
      exact Or.inl hget
  | cons e l ih =>
      obtain ⟨id', config⟩ := e
      simp only [recordVersions, Outcome.bind_eq_ok] at h
      obtain ⟨versions, hversions, maxMinor, hminor, h⟩ := h
      rcases ih h with hold | ⟨config', versions', hmem, hsupported⟩
      · rcases SortedTable.get?_insert_eq_some hold with ⟨rfl, rfl⟩ | hold
        · exact Or.inr ⟨config, versions, List.mem_cons_self,
            Outcome.expect_eq_ok.mp hversions, Outcome.expect_eq_ok.mp hminor⟩
        · exact Or.inl hold
      · exact Or.inr ⟨config', versions', List.mem_cons_of_mem _ hmem, hsupported⟩

/-- What an op of a module does: to the tables what the citem does, if it is one; and
it makes nothing pending that is not asked for, nor what there is nothing to vote on. -/
structure Stepped (m : CtrlModule) (op : CtrlModuleOp) (m' : CtrlModule) : Prop where
  inits : m'.modulesInits = m.modulesInits
  key : m'.peerPubkey = m.peerPubkey
  db : m'.db = m.db ∨ ∃ op, m'.db = m.db.step m.modulesInits op
  pending : ∀ vote, Pending m' vote → Pending m vote ∨ (Asks m op vote ∧ Votable m vote)

theorem Stepped.same (m : CtrlModule) (op : CtrlModuleOp) : Stepped m op m :=
  ⟨rfl, rfl, Or.inl rfl, fun _ h => Or.inl h⟩

theorem step_stepped (m : CtrlModule) (op : CtrlModuleOp) :
    Stepped m op (m.step op) := by
  unfold step
  cases hok : m.tryStep op with
  | error e => exact .same m op
  | ok m' =>
      dsimp only
      cases op with
      | setPendingAddPeerVote peer =>
          simp only [tryStep, setPendingAddPeerVote, Outcome.bind_eq_ok] at hok
          obtain ⟨_, _, hok⟩ := hok
          split at hok
          · cases hok
            exact .same m _
          · cases hok
            refine ⟨rfl, rfl, Or.inl rfl, fun vote h => ?_⟩
            cases vote with
            | voteAddPeer peer' => exact Or.inr ⟨Option.some.inj h, trivial⟩
            | voteRemovePeer | voteAddModule | voteModuleVersion => exact Or.inl h
      | setPendingRemovePeerVote peer =>
          simp only [tryStep, setPendingRemovePeerVote, Outcome.bind_eq_ok] at hok
          obtain ⟨_, _, hok⟩ := hok
          split at hok
          · cases hok
            exact .same m _
          · simp only [Outcome.bind_eq_ok] at hok
            obtain ⟨_, _, hok⟩ := hok
            cases hok
            refine ⟨rfl, rfl, Or.inl rfl, fun vote h => ?_⟩
            cases vote with
            | voteRemovePeer peer' => exact Or.inr ⟨Option.some.inj h, trivial⟩
            | voteAddPeer | voteAddModule | voteModuleVersion => exact Or.inl h
      | setPendingAddModuleVote kind version =>
          simp only [tryStep, setPendingAddModuleVote, Outcome.bind_eq_ok,
            Outcome.ensure_eq_ok] at hok
          obtain ⟨_, _, _, hinit, hok⟩ := hok
          split at hok
          · cases hok
            exact .same m _
          · cases hok
            refine ⟨rfl, rfl, Or.inl rfl, fun vote h => ?_⟩
            cases vote with
            | voteAddModule kind' version' =>
                obtain ⟨rfl, rfl⟩ := Prod.mk.inj (Option.some.inj h)
                exact Or.inr ⟨⟨rfl, rfl⟩, hinit⟩
            | voteAddPeer | voteRemovePeer | voteModuleVersion => exact Or.inl h
      | recordModuleInitVersions supported =>
          simp only [tryStep, recordModuleInitVersions, Outcome.bind_eq_ok,
            Outcome.pure_eq_ok] at hok
          obtain ⟨pending, hpending, rfl⟩ := hok
          refine ⟨rfl, rfl, Or.inl rfl, fun vote h => ?_⟩
          cases vote with
          | voteModuleVersion id minor =>
              rcases recordVersions_get? hpending h with
                hold | ⟨config, versions, hmem, hsupported⟩
              · exact Or.inl hold
              · have hconfig := SortedTable.mem_entries.mp hmem
                refine Or.inr ⟨⟨config, versions, hconfig, hsupported⟩, ?_⟩
                rw [Votable, hconfig]
                rfl
          | voteAddPeer | voteRemovePeer | voteAddModule => exact Or.inl h
      | processCitem voter citem =>
          simp only [tryStep, Outcome.bind_eq_ok, Outcome.pure_eq_ok] at hok
          obtain ⟨⟨m'', effects⟩, hok, rfl⟩ := hok
          obtain ⟨vote, _, hdb, hinits, hkey, hpending⟩ := processCitem_ok hok
          refine ⟨hinits, hkey, Or.inr ⟨⟨voter, citem⟩, ?_⟩, fun vote' h => ?_⟩
          · unfold CtrlDb.step
            rw [hdb]
          · exact Or.inl (pending_of_clearPending ((hpending vote').mp h))

/-- A configured module stays configured. -/
theorem step_configured {inits : ModulesInits} {db : CtrlDb} {op : CtrlOp}
    {id : ModuleId} (h : (db.modulesConfigs.get? id).isSome = true) :
    ((db.step inits op).modulesConfigs.get? id).isSome = true := by
  have hkind : ∀ {configs : ModulesConfigs},
      (configs.get? id).map ModuleConfig.kind =
        (db.modulesConfigs.get? id).map ModuleConfig.kind →
      (configs.get? id).isSome = true := by
    intro configs heq
    rw [← Option.isSome_map (f := ModuleConfig.kind), heq, Option.isSome_map]
    exact h
  unfold CtrlDb.step
  split
  · next db' effects hok =>
      obtain ⟨_, vote, _, hcase⟩ := CtrlDb.processCitem_cases hok
      cases hcase with
      | addRecorded => exact h
      | added _ _ _ _ hdb =>
          rw [hdb]
          exact h
      | repeated => exact h
      | removeRecorded => exact h
      | removed _ db₁ _ _ _ _ _ hdb =>
          have hconfigs : db₁.modulesConfigs = db.modulesConfigs :=
            (congrArg CtrlDb.modulesConfigs hdb :)
          refine hkind ?_
          rw [CtrlDb.checkModuleVersionUpgrades_kind, hconfigs]
      | moduleRecorded _ _ _ _ _ hdb =>
          rw [hdb]
          exact h
      | moduleAdded kind version minor _ _ newId =>
          rw [SortedTable.get?_insert]
          split
          · rfl
          · exact h
      | versionRecorded _ _ _ db₁ hdb =>
          have hconfigs : db₁.modulesConfigs = db.modulesConfigs :=
            (congrArg CtrlDb.modulesConfigs hdb :)
          refine hkind ?_
          rw [CtrlDb.checkModuleVersionUpgrades_kind, hconfigs]
  · exact h

/-! ## Runs -/

/-- What is pending can be voted on, and the tables are tidy if anybody is there to
vote. -/
structure ModuleInv (m : CtrlModule) : Prop where
  tidy : m.db.members.Nonempty → CtrlDb.Tidy m.db
  votable : ∀ vote, Pending m vote → Votable m vote

theorem step_moduleInv (m : CtrlModule) (op : CtrlModuleOp) (h : ModuleInv m) :
    ModuleInv (m.step op) := by
  have hstep := step_stepped m op
  have hvotable : ∀ vote, Votable m vote → Votable (m.step op) vote := by
    intro vote hvote
    cases vote with
    | voteAddPeer | voteRemovePeer => trivial
    | voteAddModule kind version =>
        rw [Votable, hstep.inits]
        exact hvote
    | voteModuleVersion id minor =>
        rw [Votable]
        rcases hstep.db with hdb | ⟨op', hdb⟩
        · rw [hdb]
          exact hvote
        · rw [hdb]
          exact step_configured hvote
  refine ⟨fun hmembers => ?_, fun vote hpending => ?_⟩
  · rcases hstep.db with hdb | ⟨op', hdb⟩
    · rw [hdb] at hmembers ⊢
      exact h.tidy hmembers
    · rw [hdb] at hmembers ⊢
      refine CtrlDb.step_tidy m.db op' (h.tidy ?_)
      obtain ⟨k, hk⟩ := hmembers
      by_cases hold : k ∈ m.db.members
      · exact ⟨k, hold⟩
      · obtain ⟨_, hadds⟩ := CtrlDb.step_new_member hk hold
        exact ⟨op'.voter, CtrlDb.mem_members.mpr (CtrlDb.contains_getPeerSet.mp hadds.1)⟩
  · rcases hstep.pending vote hpending with hold | ⟨_, hvote⟩
    · exact hvotable vote (h.votable vote hold)
    · exact hvotable vote hvote

/-- What is not pending stays so until it is asked for. -/
theorem run_not_pending {vote : ConsensusCtrlCitem} {ops : List CtrlModuleOp}
    (hops : Trail.Guarded step (fun m op => ¬ Asks m op vote) m ops)
    (h : ¬ Pending m vote) : ¬ Pending (m.run ops) vote :=
  hops.invariant (I := fun m => ¬ Pending m vote)
    (fun m op hnot hask hpending =>
      ((step_stepped m op).pending vote hpending).elim hnot fun h => hask h.1) h

theorem run_peerPubkey (m : CtrlModule) (ops : List CtrlModuleOp) :
    (m.run ops).peerPubkey = m.peerPubkey :=
  Trail.run_invariant (I := fun m' : CtrlModule => m'.peerPubkey = m.peerPubkey)
    (fun m' op h => (step_stepped m' op).key.trans h) rfl ops

theorem start_moduleInv (inits : ModulesInits) (key : Option PeerPubkey)
    (id : ModuleId) (version : ConsensusVersion) (peerSet : PeerSet) :
    ModuleInv (start inits key id version peerSet) where
  tidy h := CtrlDb.run_tidy_of_nonempty
    (show (CtrlDb.run inits _ []).members.Nonempty from h)
  votable vote h := by cases vote <;> cases h

/-! ## Own proposals -/

/-- The node accepts the vote from itself, and then does not propose it until it is
asked to. -/
def AcceptsOwn (m : CtrlModule) (k : PeerPubkey) (vote : ConsensusCtrlCitem) : Prop :=
  ∃ m' effects, m.processCitem k m.db.getPeerSet (some vote) = .ok (m', effects) ∧
    ∀ ops, Trail.Guarded step (fun m op => ¬ Asks m op vote) m' ops →
      vote ∉ (m'.run ops).refreshConsensusProposals

/-- No vote is pending that the node would turn down: to remove itself where it is the
last peer, and to add or remove anybody where there are too many to count. -/
structure Acceptable (m : CtrlModule) (k : PeerPubkey) : Prop where
  last : m.db.getPeerSet.len = 1 → m.pendingRemovePeerVote ≠ some k
  adds : 255 < m.db.getPeerSet.len → ∀ peer, m.pendingAddPeerVote = some peer →
    m.db.getPeerSet.contains peer = true ∨ m.db.addPeerVotes.get? k = some peer
  removes : 255 < m.db.getPeerSet.len → ∀ peer, m.pendingRemovePeerVote = some peer →
    m.db.getPeerSet.contains peer = false ∨ m.db.removePeerVotes.get? k = some peer

theorem admits_of_open {kind : ModuleKind} {version : ConsensusVersion}
    (hvotable : Votable m (.voteAddModule kind version))
    (hopen : Open m k (.voteAddModule kind version)) :
    CtrlDb.Admits m.modulesInits m.db kind := by
  refine ⟨hvotable, fun hexists => ?_⟩
  have hfree := hopen.1
  unfold moduleAlreadyExists at hfree
  rw [hexists.1, hexists.2] at hfree
  cases hfree

theorem acceptsOwn_of_isOk (hkey : m.peerPubkey = some k) {vote : ConsensusCtrlCitem}
    (hopen : Open m k vote)
    (h : ∃ res, m.db.processCitem m.modulesInits k m.db.getPeerSet (some vote) =
      .ok res) : AcceptsOwn m k vote := by
  obtain ⟨⟨db, effects⟩, hok⟩ := h
  have hres : ∃ m', m.processCitem k m.db.getPeerSet (some vote) = .ok (m', effects) := by
    unfold processCitem
    rw [Outcome.bind_of_ok hok]
    exact ⟨_, rfl⟩
  obtain ⟨m', hres⟩ := hres
  refine ⟨m', effects, hres, fun ops hops hmem => ?_⟩
  obtain ⟨vote', hvote, _, _, hkey', hpending⟩ := processCitem_ok hres
  cases hvote
  have hrun : (m'.run ops).peerPubkey = some k :=
    (run_peerPubkey m' ops).trans (hkey'.trans hkey)
  refine run_not_pending hops (fun hp => ?_) ((mem_refreshConsensusProposals hrun).mp hmem).1
  exact not_pending_clearPending hkey hopen ((hpending vote).mp hp)

theorem proposals_accepted_iff_acceptable (hinv : ModuleInv m)
    (hkey : m.peerPubkey = some k) (hk : k ∈ m.db.members) :
    (∀ vote ∈ m.refreshConsensusProposals, AcceptsOwn m k vote) ↔ Acceptable m k := by
  have hmember : m.db.getPeerSet.contains k = true :=
    CtrlDb.contains_getPeerSet.mpr (CtrlDb.mem_members.mp hk)
  constructor
  · intro h
    have hok : ∀ vote, Pending m vote → Open m k vote →
        ∃ res, m.db.processCitem m.modulesInits k m.db.getPeerSet (some vote) = .ok res := by
      intro vote hpending hopen
      obtain ⟨m', effects, hres, _⟩ :=
        h vote ((mem_refreshConsensusProposals hkey).mpr ⟨hpending, hopen⟩)
      obtain ⟨_, _, hdb, _⟩ := processCitem_ok hres
      exact ⟨_, hdb⟩
    refine ⟨fun hlen hpending => ?_, fun hlen peer hpending => ?_,
      fun hlen peer hpending => ?_⟩
    · -- nobody votes to remove the last peer
      have hcast : m.db.removePeerVotes.get? k ≠ some k := by
        intro hcast
        have hfew := (hinv.tidy ⟨k, hk⟩).few k
        rw [hlen] at hfew
        have hzero : CtrlDb.countVotes m.db.removePeerVotes m.db.getPeerSet k = 0 :=
          Nat.lt_one_iff.mp hfew
        rw [CtrlDb.countVotes, List.countP_eq_zero] at hzero
        exact hzero k (of_decide_eq_true hmember) (decide_eq_true hcast)
      obtain ⟨res, hres⟩ := hok (.voteRemovePeer k) hpending ⟨hmember, hcast⟩
      exact ((processCitem_isOk hmember _).mp ⟨res, hres⟩).2.1 hlen
    · by_contra hopen
      push Not at hopen
      have hnot : m.db.getPeerSet.contains peer = false := Bool.eq_false_iff.mpr hopen.1
      have hres := hok (.voteAddPeer peer) hpending ⟨hnot, hopen.2⟩
      exact absurd hlen (not_lt.mpr ((processCitem_isOk hmember _).mp hres).2)
    · by_contra hopen
      push Not at hopen
      have hin : m.db.getPeerSet.contains peer = true :=
        Bool.eq_true_of_not_eq_false hopen.1
      have hres := hok (.voteRemovePeer peer) hpending ⟨hin, hopen.2⟩
      rcases ((processCitem_isOk hmember _).mp hres).2.2 with hcast | hsize
      · exact hopen.2 hcast
      · exact absurd hlen (not_lt.mpr hsize)
  · intro h vote hvote
    obtain ⟨hpending, hopen⟩ := (mem_refreshConsensusProposals hkey).mp hvote
    refine acceptsOwn_of_isOk hkey hopen ((processCitem_isOk hmember vote).mpr ?_)
    have hvotable := hinv.votable vote hpending
    cases vote with
    | voteAddPeer peer =>
        refine ⟨hopen.1, not_lt.mp fun hlen => ?_⟩
        rcases h.adds hlen peer hpending with hin | hcast
        · exact Bool.false_ne_true (hopen.1.symm.trans hin)
        · exact hopen.2 hcast
    | voteRemovePeer peer =>
        refine ⟨hopen.1, fun hlen => ?_, Or.inr (not_lt.mp fun hlen => ?_)⟩
        · -- the only peer is the node itself
          obtain ⟨x, hx⟩ := List.length_eq_one_iff.mp (show m.db.getPeerSet.items.length = 1
            from hlen)
          have hpeer : peer ∈ m.db.getPeerSet.items := of_decide_eq_true hopen.1
          have hself : k ∈ m.db.getPeerSet.items := of_decide_eq_true hmember
          rw [hx, List.mem_singleton] at hpeer hself
          exact h.last hlen (by rw [hself, ← hpeer]; exact hpending)
        · rcases h.removes hlen peer hpending with hout | hcast
          · exact Bool.false_ne_true (hout.symm.trans hopen.1)
          · exact hopen.2 hcast
    | voteAddModule kind version => exact admits_of_open hvotable hopen
    | voteModuleVersion id minor => exact hvotable

/-- In every state a node can be in as a member, it accepts what it proposes exactly
when no vote is pending that it would turn down. -/
theorem proposals_accepted_iff (inits : ModulesInits) (k : PeerPubkey) (id : ModuleId)
    (version : ConsensusVersion) (peerSet : PeerSet) (ops : List CtrlModuleOp)
    (hk : k ∈ ((start inits (some k) id version peerSet).run ops).db.members) :
    (∀ vote ∈ ((start inits (some k) id version peerSet).run
        ops).refreshConsensusProposals,
      AcceptsOwn ((start inits (some k) id version peerSet).run ops) k vote) ↔
      Acceptable ((start inits (some k) id version peerSet).run ops) k :=
  proposals_accepted_iff_acceptable
    (Trail.run_invariant step_moduleInv
      (start_moduleInv inits (some k) id version peerSet) ops)
    (run_peerPubkey _ ops) hk

/-! ## The last peer -/

section LastPeer

/-- Two peers remove one of them. While that is being voted on, the operator of the
other asks for its own removal. -/
def lastPeerOps : List CtrlModuleOp :=
  [.setPendingRemovePeerVote 11, .processCitem 10 (some (.voteRemovePeer 11)),
   .setPendingRemovePeerVote 10, .processCitem 11 (some (.voteRemovePeer 11))]

/-- The one that is left proposes to remove itself, and does not accept it. -/
theorem last_peer_proposes_removal :
    10 ∈ ((start .empty (some 10) 0 ⟨0, 0⟩ ⟨[10, 11]⟩).run lastPeerOps).db.members ∧
      .voteRemovePeer 10 ∈ ((start .empty (some 10) 0 ⟨0, 0⟩ ⟨[10, 11]⟩).run
        lastPeerOps).refreshConsensusProposals ∧
      ¬ AcceptsOwn ((start .empty (some 10) 0 ⟨0, 0⟩ ⟨[10, 11]⟩).run lastPeerOps) 10
        (.voteRemovePeer 10) := by
  refine ⟨by decide +kernel, by decide +kernel, ?_⟩
  rintro ⟨m', effects, hok, _⟩
  obtain ⟨_, _, hdb, _⟩ := processCitem_ok hok
  have hlast := ((processCitem_isOk (by decide +kernel) _).mp ⟨_, hdb⟩).2.1
  exact hlast (by decide +kernel)

/-- Before that it proposes the removal of the other, which it accepts. -/
theorem other_removal_accepted :
    (∀ vote ∈ ((start .empty (some 10) 0 ⟨0, 0⟩ ⟨[10, 11]⟩).run
        (lastPeerOps.take 1)).refreshConsensusProposals,
      AcceptsOwn ((start .empty (some 10) 0 ⟨0, 0⟩ ⟨[10, 11]⟩).run
        (lastPeerOps.take 1)) 10 vote) ↔
      Acceptable ((start .empty (some 10) 0 ⟨0, 0⟩ ⟨[10, 11]⟩).run
        (lastPeerOps.take 1)) 10 :=
  proposals_accepted_iff .empty 10 0 ⟨0, 0⟩ ⟨[10, 11]⟩ (lastPeerOps.take 1)
    (by decide +kernel)

end LastPeer

end CtrlModule

end Bfte
