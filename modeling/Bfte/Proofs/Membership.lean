import Mathlib.Algebra.Group.Nat.Defs
import Bfte.Core.Concrete
import Bfte.Proofs.Standing

/-!
# Who is a member, and who may become one

The peers change one at a time and by a quorum of those there are, and what votes
stand is between members and about the right peers: to add somebody who is not a
member, to remove somebody who is.

What nothing looks at is whom the members want to add. The core takes at most 255
peers, and keys that are keys; `usable_iff_admitsUsable` says that every set it is
handed is of that kind exactly when every peer that is voted in has a key, and finds
a place.
-/

namespace Bfte

namespace CtrlDb

/-- The peers, as a set. -/
def members (db : CtrlDb) : Finset PeerPubkey := db.getPeerSet.items.toFinset

/-- The members with a vote standing for a candidate. -/
def supporters (db : CtrlDb) (votes : SortedTable PeerPubkey PeerPubkey)
    (candidate : PeerPubkey) : Finset PeerPubkey :=
  db.members.filter fun k => votes.get? k = some candidate

theorem mem_members {db : CtrlDb} {k : PeerPubkey} :
    k ∈ db.members ↔ (db.peers.get? k).isSome = true :=
  List.mem_toFinset.trans mem_getPeerSet

theorem card_members (db : CtrlDb) : db.members.card = db.getPeerSet.len :=
  List.toFinset_card_of_nodup (nodup_getPeerSet db)

theorem card_supporters (db : CtrlDb) (votes : SortedTable PeerPubkey PeerPubkey)
    (candidate : PeerPubkey) :
    (db.supporters votes candidate).card =
      countVotes votes db.getPeerSet candidate :=
  (Tally.count_eq_card (nodup_getPeerSet db)).symm

/-! ## One step -/

/-- What `consensus-ctrl` tells the app about a citem. -/
def effectsOf (inits : ModulesInits) (db : CtrlDb) (op : CtrlOp) : List CtrlEffect :=
  match db.processCitem inits op.voter db.getPeerSet op.citem with
  | .ok (_, effects) => effects
  | .error _ => []

/-- The vote of `voter` is the one that adds `peer`. -/
def Adds (db : CtrlDb) (voter peer : PeerPubkey) : Prop :=
  db.getPeerSet.contains voter = true ∧ db.getPeerSet.contains peer = false ∧
    db.getPeerSet.len ≤ 255 ∧
    (NumPeers.mk db.getPeerSet.len).threshold ≤
      countVotes (db.addPeerVotes.insert voter peer) db.getPeerSet peer

instance (db : CtrlDb) (voter peer : PeerPubkey) : Decidable (Adds db voter peer) :=
  inferInstanceAs (Decidable (_ ∧ _))

/-- What a citem does to the peers, and the change of params it tells of. -/
inductive PeersCase (db : CtrlDb) (op : CtrlOp) : CtrlDb → List CtrlEffect → Prop
  | same (db' : CtrlDb) (effects : List CtrlEffect) (hpeers : db'.peers = db.peers)
      (hnone : ∀ s, .consensusParamsChange s ∉ effects) : PeersCase db op db' effects
  | added (peer : PeerPubkey) (db' : CtrlDb) (effects : List CtrlEffect)
      (hop : op.citem = some (.voteAddPeer peer)) (hadds : Adds db op.voter peer)
      (hpeers : db'.peers = db.peers.insert peer ())
      (htold : ∀ s, .consensusParamsChange s ∈ effects ↔ s = db'.getPeerSet) :
      PeersCase db op db' effects
  | removed (peer : PeerPubkey) (db' : CtrlDb) (effects : List CtrlEffect)
      (hop : op.citem = some (.voteRemovePeer peer))
      (hremoves : Removes db op.voter peer)
      (hpeers : db'.peers = db.peers.remove peer)
      (htold : ∀ s, .consensusParamsChange s ∈ effects ↔ s = db'.getPeerSet) :
      PeersCase db op db' effects

theorem upgrades_not_paramsChange (db : CtrlDb) (peerSet s : PeerSet) :
    .consensusParamsChange s ∉ (db.checkModuleVersionUpgrades peerSet).2 := by
  intro h
  obtain ⟨_, _, heq⟩ := List.mem_map.mp h
  cases heq

theorem step_peersCase (inits : ModulesInits) (db : CtrlDb) (op : CtrlOp) :
    PeersCase db op (db.step inits op) (effectsOf inits db op) := by
  unfold step effectsOf
  cases hok : db.processCitem inits op.voter db.getPeerSet op.citem with
  | error e => exact .same _ _ rfl fun _ => List.not_mem_nil
  | ok res =>
      obtain ⟨db', effects⟩ := res
      obtain ⟨hvoter, vote, hvote, hcase⟩ := processCitem_cases hok
      cases hcase with
      | addRecorded => exact .same _ _ rfl fun _ => List.not_mem_nil
      | added peer _ hnot henough hdb =>
          have hsize : db.getPeerSet.len ≤ 255 := by
            rw [hvote] at hok
            simp only [processCitem, processCitemVoteAddPeer, Outcome.bind_eq_ok,
              toNumPeers_eq_ok] at hok
            obtain ⟨_, _, _, _, _, ⟨hsize, _⟩, _⟩ := hok
            exact hsize
          refine .added peer _ _ hvote ⟨hvoter, hnot, hsize, henough⟩
            (congrArg peers hdb) fun s => ?_
          simp
      | repeated => exact .same _ _ rfl fun _ => List.not_mem_nil
      | removeRecorded => exact .same _ _ rfl fun _ => List.not_mem_nil
      | removed peer db₁ hin hlast hnew henough hpeers _ hsize =>
          refine .removed peer _ _ hvote ⟨hvoter, hin, hlast, hsize, hnew, henough⟩
            hpeers fun s => ?_
          have hnone := upgrades_not_paramsChange db₁ db₁.getPeerSet s
          simp only [List.mem_cons, reduceCtorEq, false_or, hnone, or_false,
            CtrlEffect.consensusParamsChange.injEq]
          exact Iff.rfl
      | moduleRecorded _ _ _ _ _ hdb =>
          exact .same _ _ (congrArg peers hdb :) fun _ => List.not_mem_nil
      | moduleAdded => exact .same _ _ rfl fun _ => by simp
      | versionRecorded _ _ _ db₁ hdb =>
          exact .same _ _ (congrArg peers hdb :) fun s =>
            upgrades_not_paramsChange db₁ _ s

/-- What the tables of votes and of peers have to do with each other. -/
structure Sound (db : CtrlDb) : Prop where
  manned : db.members.Nonempty
  adds : ∀ voter peer, db.addPeerVotes.get? voter = some peer →
    voter ∈ db.members ∧ peer ∉ db.members
  removes : ∀ voter peer, db.removePeerVotes.get? voter = some peer →
    voter ∈ db.members ∧ peer ∈ db.members

/-- What a citem may do to the peers: nothing, or what enough of them want, itself
counted. -/
inductive MembersStep (db : CtrlDb) (op : CtrlOp) (db' : CtrlDb) : Prop
  | same (h : db'.peers = db.peers)
  | added (peer : PeerPubkey) (hop : op.citem = some (.voteAddPeer peer))
      (hnot : peer ∉ db.members) (hmembers : db'.members = insert peer db.members)
      (henough : (NumPeers.mk db.members.card).threshold ≤
        (db.supporters (db.addPeerVotes.insert op.voter peer) peer).card)
  | removed (peer : PeerPubkey) (hop : op.citem = some (.voteRemovePeer peer))
      (hin : peer ∈ db.members) (hmembers : db'.members = db.members.erase peer)
      (henough : (NumPeers.mk db.members.card).threshold ≤
        (db.supporters (db.removePeerVotes.insert op.voter peer) peer).card)

theorem Tidy.sound {db : CtrlDb} (h : Tidy db) : Sound db where
  manned := by
    obtain ⟨k, hk⟩ := getPeerSet_len_ne_zero.mp h.manned
    exact ⟨k, mem_members.mpr hk⟩
  adds voter peer hget := by
    obtain ⟨hvoter, hpeer⟩ := h.adds voter peer hget
    refine ⟨mem_members.mpr hvoter, fun hin => ?_⟩
    rw [mem_members, hpeer] at hin
    cases hin
  removes voter peer hget := by
    obtain ⟨hvoter, hpeer⟩ := h.removes voter peer hget
    exact ⟨mem_members.mpr hvoter, mem_members.mpr hpeer⟩

theorem members_insert {db db' : CtrlDb} {peer : PeerPubkey}
    (hpeers : db'.peers = db.peers.insert peer ()) :
    db'.members = insert peer db.members := by
  ext k
  rw [Finset.mem_insert, mem_members, mem_members, hpeers, SortedTable.get?_insert]
  by_cases hk : k = peer
  · simp [hk]
  · simp [hk]

theorem members_remove {db db' : CtrlDb} {peer : PeerPubkey}
    (hpeers : db'.peers = db.peers.remove peer) :
    db'.members = db.members.erase peer := by
  ext k
  rw [Finset.mem_erase, mem_members, mem_members, hpeers, SortedTable.get?_remove]
  by_cases hk : k = peer
  · simp [hk]
  · simp [hk]

theorem step_members (inits : ModulesInits) (db : CtrlDb) (op : CtrlOp) :
    MembersStep db op (db.step inits op) := by
  cases step_peersCase inits db op with
  | same _ _ hpeers => exact .same hpeers
  | added peer _ _ hop hadds hpeers =>
      obtain ⟨_, hnot, _, henough⟩ := hadds
      refine .added peer hop ?_ (members_insert hpeers) ?_
      · rw [mem_members, not_contains_getPeerSet.mp hnot]
        exact Bool.false_ne_true
      · rw [card_members, card_supporters]
        exact henough
  | removed peer _ _ hop hremoves hpeers =>
      obtain ⟨_, hin, _, _, _, henough⟩ := hremoves
      refine .removed peer hop (mem_members.mpr (contains_getPeerSet.mp hin))
        (members_remove hpeers) ?_
      rw [card_members, card_supporters]
      exact henough

/-! ## Runs -/

variable {inits : ModulesInits} {id : ModuleId} {version : ConsensusVersion}
  {peerSet : PeerSet}

theorem run_tidy (hne : peerSet.items ≠ []) (ops : List CtrlOp) :
    Tidy (run inits (empty.bootstrapConsensus id version peerSet) ops) :=
  Trail.run_invariant (I := Tidy) step_tidy (bootstrap_tidy hne) ops

/-- In every state of a run the votes are between members, and whatever comes next
changes the peers only as enough of them want. -/
theorem membership_sound (inits : ModulesInits) (id : ModuleId)
    (version : ConsensusVersion) (peerSet : PeerSet) (hne : peerSet.items ≠ [])
    (ops : List CtrlOp) (op : CtrlOp) :
    Sound (run inits (empty.bootstrapConsensus id version peerSet) ops) ∧
      MembersStep (run inits (empty.bootstrapConsensus id version peerSet) ops) op
        (step inits (run inits (empty.bootstrapConsensus id version peerSet) ops) op) :=
  ⟨(run_tidy hne ops).sound, step_members inits _ op⟩

/-- Three peers of whom one is removed, with a vote to add another standing. -/
theorem membership_sound_of_three :
    Sound (run .empty (empty.bootstrapConsensus 0 ⟨0, 0⟩ ⟨[10, 11, 12]⟩)
        removeThirdOps) ∧
      MembersStep
        (run .empty (empty.bootstrapConsensus 0 ⟨0, 0⟩ ⟨[10, 11, 12]⟩) removeThirdOps)
        ⟨10, some (.voteAddPeer 20)⟩
        (step .empty (run .empty (empty.bootstrapConsensus 0 ⟨0, 0⟩ ⟨[10, 11, 12]⟩)
          removeThirdOps) ⟨10, some (.voteAddPeer 20)⟩) :=
  membership_sound .empty 0 ⟨0, 0⟩ ⟨[10, 11, 12]⟩ (List.cons_ne_nil _ _) removeThirdOps
    ⟨10, some (.voteAddPeer 20)⟩

/-! ## Peer sets for the core -/

/-- A peer set the core can work with. -/
structure UsablePeerSet (D S : Type) [Signing D S] (s : PeerSet) : Prop where
  manned : 1 ≤ s.len
  fits : s.len ≤ 255
  sorted : s.items.Pairwise (· < ·)
  keys : ∀ k ∈ s.items, Signing.validKey D S k = true

/-- What a peer set can make the core panic with: too many peers to count or to
index, a key that is none. -/
structure NeverPanics (D S : Type) [Signing D S] (s : PeerSet) : Prop where
  numPeers : ¬ (toNumPeers s.len : Outcome Empty NumPeers).Panicked
  peerIdx : ∀ (params : ConsensusParams D) (k : PeerPubkey) (i : PeerIdx),
    params.peers = s → params.findPeerIdx k = some i → i ≤ PeerIdx.MAX
  signature : ∀ (msg : SignMsg D) (sig : S) (i : PeerIdx) (k : PeerPubkey),
    s.index i = (.ok k : Outcome Empty PeerPubkey) →
      ¬ (verifyHashSignature msg k sig).Panicked

variable {D S : Type} [Signing D S]

theorem UsablePeerSet.neverPanics {s : PeerSet} (h : UsablePeerSet D S s) :
    NeverPanics D S s where
  numPeers := by
    rw [panicked_toNumPeers]
    exact not_lt.mpr h.fits
  peerIdx params k i hparams hi := by
    have hlt := (List.getElem?_eq_some_iff.mp
      (ConsensusParams.findPeerIdx_getElem? hi)).1
    rw [hparams] at hlt
    exact Nat.le_of_lt (Nat.lt_of_lt_of_le hlt (h.fits))
  signature msg sig i k hk hpanic := by
    have hvalid := h.keys k (List.mem_of_getElem? (PeerSet.index_eq_ok.mp hk))
    unfold verifyHashSignature at hpanic
    rw [Outcome.bind_of_ok (Outcome.assertThat_of hvalid)] at hpanic
    exact Outcome.not_panicked_ensure hpanic

/-- The peers of the table are listed in key order. -/
theorem sorted_getPeerSet (db : CtrlDb) : db.getPeerSet.items.Pairwise (· < ·) := by
  have hle : db.getPeerSet.items.Pairwise (· ≤ ·) := List.pairwise_insertionSort _ _
  exact (hle.and (nodup_getPeerSet db)).imp fun h => lt_of_le_of_ne h.1 h.2

/-- If the op adds a peer, the peer has a key and there is room for it. -/
def AdmitsUsable (D S : Type) [Signing D S] (db : CtrlDb) (op : CtrlOp) : Prop :=
  match op.citem with
  | some (.voteAddPeer peer) => Adds db op.voter peer →
      Signing.validKey D S peer = true ∧ db.getPeerSet.len < 255
  | _ => True

theorem getPeerSet_congr {db db' : CtrlDb} (hpeers : db'.peers = db.peers) :
    db'.getPeerSet = db.getPeerSet := by
  unfold getPeerSet
  rw [hpeers]

/-- A vote of a member goes to the function for its kind. -/
theorem processCitem_of_member {db : CtrlDb} {voter : PeerPubkey} {s : PeerSet}
    (h : s.contains voter = true) (vote : ConsensusCtrlCitem) :
    db.processCitem inits voter s (some vote) =
      match vote with
      | .voteAddPeer peer => db.processCitemVoteAddPeer voter s peer
      | .voteRemovePeer peer => db.processCitemVoteRemovePeer voter s peer
      | .voteAddModule kind version =>
          db.processCitemVoteAddModule inits voter s kind version
      | .voteModuleVersion id minor =>
          db.processCitemVoteModuleVersion voter s id minor := by
  unfold processCitem
  rw [Outcome.bind_of_ok (Outcome.assertThat_of h)]
  cases vote <;> rfl

/-- A vote that makes up the number for the addition adds the peer. -/
theorem Adds.added {db : CtrlDb} {voter peer : PeerPubkey} (inits : ModulesInits)
    (h : Adds db voter peer) :
    ∃ adds, db.step inits ⟨voter, some (.voteAddPeer peer)⟩ = { db with
      peers := db.peers.insert peer ()
      addPeerVotes := adds } := by
  obtain ⟨hvoter, hnot, hsize, henough⟩ := h
  unfold step
  rw [processCitem_of_member hvoter]
  dsimp only [processCitemVoteAddPeer]
  rw [Outcome.bind_of_ok (Outcome.ensure_of hnot),
    Outcome.bind_of_ok (toNumPeers_of_le hsize), if_pos henough]
  exact ⟨_, rfl⟩

theorem Adds.peers {db : CtrlDb} {voter peer : PeerPubkey} (inits : ModulesInits)
    (h : Adds db voter peer) :
    (db.step inits ⟨voter, some (.voteAddPeer peer)⟩).peers =
      db.peers.insert peer () := by
  obtain ⟨adds, hstep⟩ := h.added inits
  rw [hstep]

theorem UsablePeerSet.of_perm {s s' : PeerSet} (h : UsablePeerSet D S s)
    (hperm : s'.items.Perm s.items) (hsorted : s'.items.Pairwise (· < ·)) :
    UsablePeerSet D S s' := by
  have hlen : s'.len = s.len := hperm.length_eq
  exact ⟨hlen ▸ h.manned, hlen ▸ h.fits, hsorted,
    fun k hk => h.keys k (hperm.mem_iff.mp hk)⟩

/-- The set is usable after a citem, if it was before, exactly when no peer is voted in
that is unusable. -/
theorem step_usable_iff (db : CtrlDb) (op : CtrlOp)
    (h : UsablePeerSet D S db.getPeerSet) :
    UsablePeerSet D S (db.step inits op).getPeerSet ↔ AdmitsUsable D S db op := by
  obtain ⟨voter, citem⟩ := op
  by_cases hadds : ∃ peer, citem = some (.voteAddPeer peer) ∧ Adds db voter peer
  · obtain ⟨peer, rfl, hadds⟩ := hadds
    have hperm := getPeerSet_insert (hadds.peers inits)
      (not_contains_getPeerSet.mp hadds.2.1)
    have hlen : (db.step inits ⟨voter, some (.voteAddPeer peer)⟩).getPeerSet.len =
        db.getPeerSet.len + 1 := hperm.length_eq
    constructor
    · intro husable _
      have hfits := husable.fits
      rw [hlen] at hfits
      exact ⟨husable.keys peer (hperm.mem_iff.mpr List.mem_cons_self), hfits⟩
    · intro hadmits
      obtain ⟨hkey, hroom⟩ := hadmits hadds
      refine ⟨hlen ▸ Nat.le_add_left 1 _, hlen ▸ hroom, sorted_getPeerSet _,
        fun k hk => ?_⟩
      rcases List.mem_cons.mp (hperm.mem_iff.mp hk) with rfl | hk
      · exact hkey
      · exact h.keys k hk
  · refine iff_of_true ?_ ?_
    · cases step_peersCase inits db ⟨voter, citem⟩ with
      | same _ _ hpeers =>
          rw [getPeerSet_congr hpeers]
          exact h
      | added peer _ _ hop hpeer => exact absurd ⟨peer, hop, hpeer⟩ hadds
      | removed peer _ _ _ hremoves hpeers =>
          obtain ⟨_, hin, hlast, _⟩ := hremoves
          have hothers := others_len hin
          have hmanned := h.manned
          have hfits := h.fits
          have hleft : UsablePeerSet D S (db.others peer) := by
            refine ⟨by omega, by omega, h.sorted.filter _, fun k hk => ?_⟩
            exact h.keys k (mem_others.mp hk).1
          exact hleft.of_perm (getPeerSet_remove hpeers) (sorted_getPeerSet _)
    · unfold AdmitsUsable
      split
      · next peer hop => exact fun hpeer => absurd ⟨peer, hop, hpeer⟩ hadds
      · exact trivial

theorem bootstrap_usable (h : UsablePeerSet D S peerSet) :
    UsablePeerSet D S (empty.bootstrapConsensus id version peerSet).getPeerSet := by
  refine h.of_perm ?_ (sorted_getPeerSet _)
  have hnodup : peerSet.items.Nodup := h.sorted.imp fun hlt => ne_of_lt hlt
  refine (List.perm_ext_iff_of_nodup (nodup_getPeerSet _) hnodup).mpr fun k => ?_
  rw [mem_getPeerSet, bootstrap_peers]
  exact decide_eq_true_iff

/-- All sets that the core is told of are usable exactly when every peer that is voted
in has a key and there is room for it. -/
theorem usable_iff_admitsUsable (inits : ModulesInits) (id : ModuleId)
    (version : ConsensusVersion) (peerSet : PeerSet) (h : UsablePeerSet D S peerSet)
    (ops : List CtrlOp) :
    (∀ before op, before ++ [op] <+: ops → ∀ s, .consensusParamsChange s ∈
        effectsOf inits (run inits (empty.bootstrapConsensus id version peerSet) before)
          op → UsablePeerSet D S s ∧ NeverPanics D S s) ↔
      Trail.Guarded (step inits) (AdmitsUsable D S)
        (empty.bootstrapConsensus id version peerSet) ops := by
  rw [Trail.guarded_iff (J := fun _ => True) (fun _ _ _ => trivial)
    (fun db op _ husable => step_usable_iff (D := D) (S := S) db op husable) trivial
    (bootstrap_usable h)]
  have hstep : ∀ before op, run inits (empty.bootstrapConsensus id version peerSet)
      (before ++ [op]) = step inits
        (run inits (empty.bootstrapConsensus id version peerSet) before) op :=
    fun before op => Trail.run_append _ before [op]
  constructor
  · intro htold before hpre
    induction before using List.reverseRecOn with
    | nil => exact bootstrap_usable h
    | append_singleton before op ih =>
        have husable := ih ((List.prefix_append before [op]).trans hpre)
        have hnew := htold before op hpre
        show UsablePeerSet D S (run inits _ (before ++ [op])).getPeerSet
        rw [hstep]
        cases step_peersCase inits (run inits
          (empty.bootstrapConsensus id version peerSet) before) op with
        | same _ _ hpeers =>
            rw [getPeerSet_congr hpeers]
            exact husable
        | added _ _ _ _ _ _ htells => exact (hnew _ ((htells _).mpr rfl)).1
        | removed _ _ _ _ _ _ htells => exact (hnew _ ((htells _).mpr rfl)).1
  · intro hall before op hpre s hs
    have husable : UsablePeerSet D S
        (run inits (empty.bootstrapConsensus id version peerSet)
          (before ++ [op])).getPeerSet := hall _ hpre
    rw [hstep] at husable
    cases step_peersCase inits (run inits
      (empty.bootstrapConsensus id version peerSet) before) op with
    | same _ _ _ hnone => exact absurd hs (hnone s)
    | added _ _ _ _ _ _ htells =>
        rw [(htells s).mp hs]
        exact ⟨husable, husable.neverPanics⟩
    | removed _ _ _ _ _ _ htells =>
        rw [(htells s).mp hs]
        exact ⟨husable, husable.neverPanics⟩

/-! ## A key that is none -/

section OffCurve

/-- The 32 bytes 02 00 … 00. The curve has no point with this y. -/
def offCurve : PeerPubkey := 2 ^ 249

/-- A signature that says who signed what, where not all bytes are a key. -/
structure CurveSig where
  sig : PlainSig
  deriving DecidableEq

instance : Signing ListDigest CurveSig where
  verify k sig m := decide (sig.sig = (k, m))
  sign k m := ⟨(k, m)⟩
  validKey k := decide (k ≠ offCurve)

/-- A peer on its own adds another, and the core panics on a signature of it. -/
theorem core_told_of_unusable_peer :
    UsablePeerSet ListDigest CurveSig ⟨[10]⟩ ∧ ∃ s, .consensusParamsChange s ∈
        effectsOf .empty (empty.bootstrapConsensus 0 ⟨0, 0⟩ ⟨[10]⟩)
          ⟨10, some (.voteAddPeer offCurve)⟩ ∧
      ¬ UsablePeerSet ListDigest CurveSig s ∧
      s.index 1 = (.ok offCurve : Outcome Empty PeerPubkey) ∧
      ∀ sig : CurveSig, (verifyHashSignature
        (.finality 0 : SignMsg ListDigest) offCurve sig).Panicked := by
  refine ⟨⟨by decide, by decide, by decide, by decide⟩, ⟨[10, offCurve]⟩,
    by decide +kernel, fun h => ?_, rfl, fun sig => ⟨_, rfl⟩⟩
  have hkey := h.keys offCurve (by decide)
  exact absurd hkey (by decide)

/-- Three peers that add a fourth. -/
theorem usable_of_three :
    (∀ before op, before ++ [op] <+: [⟨10, some (.voteAddPeer 13)⟩,
        ⟨11, some (.voteAddPeer 13)⟩, ⟨12, some (.voteAddPeer 13)⟩] →
      ∀ s, .consensusParamsChange s ∈ effectsOf .empty
          (run .empty (empty.bootstrapConsensus 0 ⟨0, 0⟩ ⟨[10, 11, 12]⟩) before) op →
        UsablePeerSet ListDigest CurveSig s ∧ NeverPanics ListDigest CurveSig s) ↔
      Trail.Guarded (step .empty) (AdmitsUsable ListDigest CurveSig)
        (empty.bootstrapConsensus 0 ⟨0, 0⟩ ⟨[10, 11, 12]⟩)
        [⟨10, some (.voteAddPeer 13)⟩, ⟨11, some (.voteAddPeer 13)⟩,
          ⟨12, some (.voteAddPeer 13)⟩] :=
  usable_iff_admitsUsable .empty 0 ⟨0, 0⟩ ⟨[10, 11, 12]⟩
    ⟨by decide, by decide, by decide, by decide⟩ _

end OffCurve

end CtrlDb

end Bfte
