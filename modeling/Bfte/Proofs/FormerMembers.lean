import Bfte.Proofs.Membership

/-!
# Votes of former members

Every vote that stands is a citem of the peer it stands for. When the peer is removed
its votes to add and to remove peers go with it; its votes for modules stay, and count
again if it is ever added again. A run in which this matters adds a peer that has such
votes left, and there are no others.

A vote that is `CastSince` is one that the peer has cast itself as the member it is.
-/

namespace Bfte

namespace CtrlDb

/-- The vote stands for the peer: it is what a tally reads if the peer is a member. -/
def Stands (db : CtrlDb) (k : PeerPubkey) : ConsensusCtrlCitem → Prop
  | .voteAddPeer peer => db.addPeerVotes.get? k = some peer
  | .voteRemovePeer peer => db.removePeerVotes.get? k = some peer
  | .voteAddModule kind version => db.addModuleVotes.get? k = some (kind, version)
  | .voteModuleVersion id minor =>
      (db.modulesVersionsVotes.get? (toLex (k, id))).map ConsensusVersion.minor =
        some minor

instance (db : CtrlDb) (k : PeerPubkey) (vote : ConsensusCtrlCitem) :
    Decidable (Stands db k vote) := by
  cases vote <;> exact inferInstanceAs (Decidable (_ = _))

/-- The peer has cast the vote in the run, and has been a member ever since. -/
def CastSince (inits : ModulesInits) (db : CtrlDb) (ops : List CtrlOp)
    (k : PeerPubkey) (vote : ConsensusCtrlCitem) : Prop :=
  ∃ before after, ops = before ++ ⟨k, some vote⟩ :: after ∧
    (∃ res, (run inits db before).processCitem inits k
      (run inits db before).getPeerSet (some vote) = .ok res) ∧
    ∀ mid, mid <+: after →
      k ∈ (run inits db (before ++ ⟨k, some vote⟩ :: mid)).members

/-- No vote of a member is left from before it was removed. -/
def VotesDie (inits : ModulesInits) (db : CtrlDb) (ops : List CtrlOp) : Prop :=
  ∀ k ∈ (run inits db ops).members, ∀ vote, Stands (run inits db ops) k vote →
    CastSince inits db ops k vote

/-- If the op adds a peer, the peer has no votes for modules left. -/
def AddsAfresh (db : CtrlDb) (op : CtrlOp) : Prop :=
  match op.citem with
  | some (.voteAddPeer peer) => Adds db op.voter peer →
      db.addModuleVotes.get? peer = none ∧
        ∀ e ∈ db.modulesVersionsVotes.entries, (ofLex e.1).1 ≠ peer
  | _ => True

instance (db : CtrlDb) : ∀ op : CtrlOp, Decidable (AddsAfresh db op)
  | ⟨_, some (.voteAddPeer _)⟩ => inferInstanceAs (Decidable (_ → _))
  | ⟨_, some (.voteRemovePeer _)⟩ => .isTrue trivial
  | ⟨_, some (.voteAddModule _ _)⟩ => .isTrue trivial
  | ⟨_, some (.voteModuleVersion _ _)⟩ => .isTrue trivial
  | ⟨_, none⟩ => .isTrue trivial

variable {inits : ModulesInits}

/-! ## One step -/

/-- A vote that stands stood before, or has just been cast. -/
theorem step_stands {db : CtrlDb} {op : CtrlOp} {k : PeerPubkey}
    {vote : ConsensusCtrlCitem} (h : Stands (db.step inits op) k vote) :
    Stands db k vote ∨ (op = ⟨k, some vote⟩ ∧
      ∃ res, db.processCitem inits k db.getPeerSet (some vote) = .ok res) := by
  obtain ⟨voter, citem⟩ := op
  unfold step at h
  split at h
  · next db' effects hok =>
      obtain ⟨_, cast, rfl, hcase⟩ := processCitem_cases hok
      have hnew : ∀ {k' vote'}, k' = voter → vote' = cast →
          (⟨voter, some cast⟩ : CtrlOp) = ⟨k', some vote'⟩ ∧
            ∃ res, db.processCitem inits k' db.getPeerSet (some vote') = .ok res := by
        rintro _ _ rfl rfl
        exact ⟨rfl, _, hok⟩
      cases hcase with
      | addRecorded peer =>
          cases vote with
          | voteAddPeer peer' =>
              rcases SortedTable.get?_insert_eq_some h with ⟨hk, hpeer⟩ | hold
              · exact Or.inr (hnew hk (congrArg _ hpeer))
              · exact Or.inl hold
          | voteRemovePeer | voteAddModule | voteModuleVersion => exact Or.inl h
      | added peer _ _ _ hdb =>
          rw [hdb] at h
          cases vote with
          | voteAddPeer peer' =>
              rcases SortedTable.get?_insert_eq_some
                (SortedTable.get?_retain_eq_some.mp h).1 with ⟨hk, hpeer⟩ | hold
              · exact Or.inr (hnew hk (congrArg _ hpeer))
              · exact Or.inl hold
          | voteRemovePeer | voteAddModule | voteModuleVersion => exact Or.inl h
      | repeated => exact Or.inl h
      | removeRecorded peer =>
          cases vote with
          | voteRemovePeer peer' =>
              rcases SortedTable.get?_insert_eq_some h with ⟨hk, hpeer⟩ | hold
              · exact Or.inr (hnew hk (congrArg _ hpeer))
              · exact Or.inl hold
          | voteAddPeer | voteAddModule | voteModuleVersion => exact Or.inl h
      | removed peer db₁ _ _ _ _ hpeers hdb =>
          have hstands : Stands db₁ k vote := by cases vote <;> exact h
          rw [hdb] at hstands
          cases vote with
          | voteAddPeer peer' =>
              exact Or.inl (SortedTable.get?_retain_eq_some.mp hstands).1
          | voteRemovePeer peer' =>
              rcases SortedTable.get?_insert_eq_some
                (SortedTable.get?_retain_eq_some.mp hstands).1 with ⟨hk, hpeer⟩ | hold
              · exact Or.inr (hnew hk (congrArg _ hpeer))
              · exact Or.inl hold
          | voteAddModule | voteModuleVersion => exact Or.inl hstands
      | moduleRecorded kind version _ _ _ hdb =>
          rw [hdb] at h
          cases vote with
          | voteAddModule kind' version' =>
              rcases SortedTable.get?_insert_eq_some h with ⟨hk, hvote⟩ | hold
              · cases hvote
                exact Or.inr (hnew hk rfl)
              · exact Or.inl hold
          | voteAddPeer | voteRemovePeer | voteModuleVersion => exact Or.inl h
      | moduleAdded kind version minor =>
          cases vote with
          | voteAddModule kind' version' =>
              rcases SortedTable.get?_insert_eq_some
                (SortedTable.get?_retain_eq_some.mp h).1 with ⟨hk, hvote⟩ | hold
              · cases hvote
                exact Or.inr (hnew hk rfl)
              · exact Or.inl hold
          | voteAddPeer | voteRemovePeer | voteModuleVersion => exact Or.inl h
      | versionRecorded id minor config db₁ hdb =>
          have hstands : Stands db₁ k vote := by cases vote <;> exact h
          rw [hdb] at hstands
          cases vote with
          | voteModuleVersion id' minor' =>
              obtain ⟨v, hget, rfl⟩ := Option.map_eq_some_iff.mp hstands
              rcases SortedTable.get?_insert_eq_some hget with ⟨hkey, rfl⟩ | hold
              · obtain ⟨rfl, rfl⟩ := Prod.mk.inj (toLex_inj.mp hkey)
                exact Or.inr (hnew rfl rfl)
              · refine Or.inl ?_
                show (db.modulesVersionsVotes.get? _).map _ = _
                rw [hold]
                rfl
          | voteAddPeer | voteRemovePeer | voteAddModule => exact Or.inl hstands
  · exact Or.inl h

/-- Whoever becomes a member is voted in. -/
theorem step_new_member {db : CtrlDb} {op : CtrlOp} {k : PeerPubkey}
    (hk : k ∈ (db.step inits op).members) (hnot : k ∉ db.members) :
    op.citem = some (.voteAddPeer k) ∧ Adds db op.voter k := by
  cases step_peersCase inits db op with
  | same _ _ hpeers =>
      rw [mem_members, hpeers, ← mem_members] at hk
      exact absurd hk hnot
  | added peer _ _ hop hadds hpeers =>
      rw [members_insert hpeers, Finset.mem_insert] at hk
      rcases hk with rfl | hk
      · exact ⟨hop, hadds⟩
      · exact absurd hk hnot
  | removed peer _ _ _ _ hpeers =>
      rw [members_remove hpeers] at hk
      exact absurd (Finset.mem_of_mem_erase hk) hnot

theorem Adds.not_member {db : CtrlDb} {voter peer : PeerPubkey}
    (h : Adds db voter peer) : peer ∉ db.members := by
  rw [mem_members, not_contains_getPeerSet.mp h.2.1]
  exact Bool.false_ne_true

/-! ## Runs -/

variable {db : CtrlDb} {before : List CtrlOp} {op : CtrlOp}

theorem run_concat (inits : ModulesInits) (db : CtrlDb) (before : List CtrlOp)
    (op : CtrlOp) :
    run inits db (before ++ [op]) = step inits (run inits db before) op :=
  Trail.run_append db before [op]

/-- A vote cast since the peer became a member stays one as long as the peer does. -/
theorem CastSince.concat {k : PeerPubkey} {vote : ConsensusCtrlCitem}
    (h : CastSince inits db before k vote)
    (hk : k ∈ (run inits db (before ++ [op])).members) :
    CastSince inits db (before ++ [op]) k vote := by
  obtain ⟨first, after, rfl, haccepted, hmember⟩ := h
  refine ⟨first, after ++ [op], by simp, haccepted, fun mid hmid => ?_⟩
  rcases List.prefix_concat_iff.mp hmid with rfl | hmid
  · rw [← List.cons_append, ← List.append_assoc]
    exact hk
  · exact hmember mid hmid

/-- What has been cast before the last op is not cast since, if the last op made the
peer a member. -/
theorem CastSince.of_concat {k : PeerPubkey} {vote : ConsensusCtrlCitem}
    (h : CastSince inits db (before ++ [op]) k vote)
    (hnot : k ∉ (run inits db before).members) : op = ⟨k, some vote⟩ := by
  obtain ⟨first, after, heq, _, hmember⟩ := h
  rcases List.eq_nil_or_concat' after with rfl | ⟨mid, last, rfl⟩
  · exact (List.cons.inj (List.append_inj' heq rfl).2).1
  · rw [← List.cons_append, ← List.append_assoc] at heq
    obtain ⟨rfl, _⟩ := List.append_inj' heq rfl
    exact absurd (hmember mid (List.prefix_append _ _)) hnot

/-- One more op leaves no vote of a former member, if it adds no peer with votes for
modules left. -/
theorem votesDie_concat (htidy : (run inits db before).members.Nonempty →
      Tidy (run inits db before)) (h : VotesDie inits db before)
    (hfresh : AddsAfresh (run inits db before) op) :
    VotesDie inits db (before ++ [op]) := by
  intro k hk vote hstands
  have hk' := hk
  rw [run_concat] at hk' hstands
  rcases step_stands hstands with hold | ⟨rfl, haccepted⟩
  · by_cases hin : k ∈ (run inits db before).members
    · exact (h k hin vote hold).concat hk
    · exfalso
      obtain ⟨hop, hadds⟩ := step_new_member hk' hin
      have hvoter : op.voter ∈ (run inits db before).members :=
        mem_members.mpr (contains_getPeerSet.mp hadds.1)
      have htidy := (htidy ⟨_, hvoter⟩).sound
      unfold AddsAfresh at hfresh
      rw [hop] at hfresh
      obtain ⟨hmodule, hversions⟩ := hfresh hadds
      cases vote with
      | voteAddPeer peer => exact hin (htidy.adds k peer hold).1
      | voteRemovePeer peer => exact hin (htidy.removes k peer hold).1
      | voteAddModule kind version =>
          rw [Stands, hmodule] at hold
          cases hold
      | voteModuleVersion id minor =>
          obtain ⟨v, hget, _⟩ := Option.map_eq_some_iff.mp hold
          exact hversions _ (SortedTable.mem_entries.mpr hget) rfl
  · refine ⟨before, [], rfl, haccepted, fun mid hmid => ?_⟩
    rw [List.prefix_nil.mp hmid]
    exact hk

/-- A peer that is added with a vote for a module left has it count again. -/
theorem not_votesDie_concat (hfresh : ¬ AddsAfresh (run inits db before) op) :
    ¬ VotesDie inits db (before ++ [op]) := by
  intro h
  obtain ⟨voter, citem⟩ := op
  unfold AddsAfresh at hfresh
  split at hfresh
  · next peer hop =>
      obtain rfl : citem = some (.voteAddPeer peer) := hop
      obtain ⟨hadds, hleft⟩ := Classical.not_imp.mp hfresh
      obtain ⟨adds, hstep⟩ := hadds.added inits
      have hmember : peer ∈ (run inits db
          (before ++ [⟨voter, some (.voteAddPeer peer)⟩])).members := by
        rw [run_concat, members_insert (hadds.peers inits)]
        exact Finset.mem_insert_self _ _
      -- what is left counts, and the peer has not cast it since
      have hcounts : ∀ vote, Stands (run inits db before) peer vote →
          Stands (run inits db (before ++ [⟨voter, some (.voteAddPeer peer)⟩]))
            peer vote → vote = .voteAddPeer peer := by
        intro vote _ hstands
        have hcast := (h peer hmember vote hstands).of_concat hadds.not_member
        exact (Option.some.inj (congrArg CtrlOp.citem hcast)).symm
      rcases Classical.not_and_iff_not_or_not.mp hleft with hmodule | hversion
      · obtain ⟨⟨kind, version⟩, hget⟩ := Option.ne_none_iff_exists'.mp hmodule
        have := hcounts (.voteAddModule kind version) hget (by
          rw [run_concat, hstep]
          exact hget)
        cases this
      · push Not at hversion
        obtain ⟨⟨key, v⟩, hmem, rfl⟩ := hversion
        have hget := SortedTable.mem_entries.mp hmem
        have := hcounts (.voteModuleVersion (ofLex key).2 v.minor)
          (congrArg (Option.map ConsensusVersion.minor) hget) (by
            rw [run_concat, hstep]
            exact congrArg (Option.map ConsensusVersion.minor) hget)
        cases this
  · exact hfresh trivial

/-- A federation that has a member is tidy; one that starts without stays without. -/
theorem run_tidy_of_nonempty {id : ModuleId} {version : ConsensusVersion}
    {peerSet : PeerSet} {ops : List CtrlOp}
    (h : (run inits (empty.bootstrapConsensus id version peerSet) ops).members.Nonempty) :
    Tidy (run inits (empty.bootstrapConsensus id version peerSet) ops) := by
  by_cases hnil : peerSet.items = []
  · have hnone : ∀ k, k ∉ (run inits
        (empty.bootstrapConsensus id version peerSet) ops).members := by
      refine Trail.run_invariant (I := fun db : CtrlDb => ∀ k, k ∉ db.members)
        (fun db op hdb k hk => ?_) (fun k hk => ?_) ops
      · obtain ⟨_, hadds⟩ := step_new_member hk (hdb k)
        exact hdb op.voter (mem_members.mpr (contains_getPeerSet.mp hadds.1))
      · rw [mem_members, bootstrap_peers, PeerSet.contains, hnil] at hk
        cases hk
    exact absurd h.choose_spec (hnone _)
  · exact run_tidy hnil ops

theorem bootstrap_votesDie (inits : ModulesInits) (id : ModuleId)
    (version : ConsensusVersion) (peerSet : PeerSet) :
    VotesDie inits (empty.bootstrapConsensus id version peerSet) [] := by
  intro k _ vote hstands
  cases vote <;> cases hstands

/-- In all states of a run every vote that counts was cast since its voter became a
member, exactly when no peer is added that has votes for modules left. -/
theorem votesDie_iff_addsAfresh (inits : ModulesInits) (id : ModuleId)
    (version : ConsensusVersion) (peerSet : PeerSet) (ops : List CtrlOp) :
    (∀ before, before <+: ops →
        VotesDie inits (empty.bootstrapConsensus id version peerSet) before) ↔
      Trail.Guarded (step inits) AddsAfresh
        (empty.bootstrapConsensus id version peerSet) ops := by
  induction ops using List.reverseRecOn with
  | nil =>
      refine iff_of_true (fun before hpre => ?_) trivial
      rw [List.prefix_nil.mp hpre]
      exact bootstrap_votesDie inits id version peerSet
  | append_singleton ops op ih =>
      rw [Trail.guarded_append, ← ih]
      constructor
      · intro h
        refine ⟨fun before hpre => h before (hpre.trans (List.prefix_append _ _)), ?_,
          trivial⟩
        by_contra hfresh
        exact not_votesDie_concat hfresh (h _ List.prefix_rfl)
      · rintro ⟨hbefore, hfresh, _⟩ before hpre
        rcases List.prefix_concat_iff.mp hpre with rfl | hpre
        · exact votesDie_concat run_tidy_of_nonempty (hbefore ops List.prefix_rfl) hfresh
        · exact hbefore before hpre

/-! ## A peer that comes back -/

section Return

open CtrlModule

/-- Of two peers one votes for a module and is removed. The one that is left adds it
again. -/
def returnOps : List CtrlOp :=
  [⟨11, some (.voteAddModule 1 ⟨1, 0⟩)⟩, ⟨10, some (.voteRemovePeer 11)⟩,
   ⟨11, some (.voteRemovePeer 11)⟩, ⟨10, some (.voteAddPeer 11)⟩]

/-- The old vote and one new one are all it takes for the module. -/
theorem former_vote_adds_module :
    ∃ k vote, k ∈ (run newBuild
        (empty.bootstrapConsensus 0 ⟨0, 0⟩ ⟨[10, 11]⟩) returnOps).members ∧
      Stands (run newBuild (empty.bootstrapConsensus 0 ⟨0, 0⟩ ⟨[10, 11]⟩) returnOps)
        k vote ∧
      ¬ CastSince newBuild (empty.bootstrapConsensus 0 ⟨0, 0⟩ ⟨[10, 11]⟩) returnOps
        k vote ∧
      effectsOf newBuild
        (run newBuild (empty.bootstrapConsensus 0 ⟨0, 0⟩ ⟨[10, 11]⟩) returnOps)
        ⟨10, some (.voteAddModule 1 ⟨1, 0⟩)⟩ = [.addModule 1 1 ⟨1, 0⟩] := by
  refine ⟨11, .voteAddModule 1 ⟨1, 0⟩, by decide +kernel, by decide +kernel,
    fun h => ?_, by decide +kernel⟩
  have hnot : 11 ∉ (run newBuild (empty.bootstrapConsensus 0 ⟨0, 0⟩ ⟨[10, 11]⟩)
      returnOps.dropLast).members := by decide +kernel
  cases CastSince.of_concat h hnot

end Return

end CtrlDb

end Bfte
