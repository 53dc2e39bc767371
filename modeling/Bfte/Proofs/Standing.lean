import Bfte.Lib.Guarded
import Bfte.Lib.Tally
import Bfte.Proofs.CtrlVotes
import Bfte.Proofs.Replicas

/-!
# Votes that stand undecided

A decision is made when a vote for it comes in. The standing votes of the peers
that are left when one is removed are not counted again, though fewer of them are
enough now, or all of them agree who did not before. Votes to remove a peer can not
be left over like that: those for the removed peer were too many.

`Tidy` is what holds of the tables in any case, `Settled` that no decision is due.
-/

namespace Bfte

/-- A citem of consensus-ctrl and the peer it is from. -/
structure CtrlOp where
  voter : PeerPubkey
  citem : Option ConsensusCtrlCitem
  deriving Repr, DecidableEq

namespace CtrlDb

/-- Process a citem with the peers of the table; a failing one is discarded. -/
def step (inits : ModulesInits) (db : CtrlDb) (op : CtrlOp) : CtrlDb :=
  match db.processCitem inits op.voter db.getPeerSet op.citem with
  | .ok (db', _) => db'
  | .error _ => db

/-- Process citems one after the other. -/
def run (inits : ModulesInits) (db : CtrlDb) (ops : List CtrlOp) : CtrlDb :=
  Trail.run (step inits) db ops

/-- No decision has the votes it takes. -/
structure Settled (inits : ModulesInits) (db : CtrlDb) : Prop where
  adds : ∀ k, db.getPeerSet.contains k = false →
    countVotes db.addPeerVotes db.getPeerSet k <
      (NumPeers.mk db.getPeerSet.len).threshold
  removes : 1 < db.getPeerSet.len → ∀ k, db.getPeerSet.contains k = true →
    countVotes db.removePeerVotes db.getPeerSet k <
      (NumPeers.mk db.getPeerSet.len).threshold
  modules : ∀ kind major, Admits inits db kind →
    (db.matchingVotes db.getPeerSet kind major).length ≠ db.getPeerSet.len

/-! ## The peers -/

theorem mem_getPeerSet {db : CtrlDb} {k : PeerPubkey} :
    k ∈ db.getPeerSet.items ↔ (db.peers.get? k).isSome = true :=
  decide_eq_true_iff.symm.trans contains_getPeerSet

theorem not_contains_getPeerSet {db : CtrlDb} {k : PeerPubkey} :
    db.getPeerSet.contains k = false ↔ db.peers.get? k = none := by
  rw [← Bool.not_eq_true, contains_getPeerSet, Option.not_isSome_iff_eq_none]

theorem nodup_getPeerSet (db : CtrlDb) : db.getPeerSet.items.Nodup := by
  have hkeys : (db.peers.entries.map Prod.fst).Nodup :=
    List.pairwise_map.mpr (db.peers.sorted.imp fun hlt => ne_of_lt hlt)
  exact (List.perm_insertionSort _ _).nodup_iff.mpr hkeys

/-- The peers, when one comes in. -/
theorem getPeerSet_insert {db db' : CtrlDb} {peer : PeerPubkey}
    (hpeers : db'.peers = db.peers.insert peer ())
    (hnot : db.peers.get? peer = none) :
    db'.getPeerSet.items.Perm (peer :: db.getPeerSet.items) := by
  have hfresh : peer ∉ db.getPeerSet.items := by
    rw [mem_getPeerSet, hnot]
    exact Bool.false_ne_true
  refine (List.perm_ext_iff_of_nodup (nodup_getPeerSet db')
    (List.nodup_cons.mpr ⟨hfresh, nodup_getPeerSet db⟩)).mpr fun k => ?_
  rw [mem_getPeerSet, List.mem_cons, mem_getPeerSet, hpeers,
    SortedTable.get?_insert]
  by_cases hk : k = peer
  · simp [hk]
  · simp [hk]

/-- The other peers. -/
def others (db : CtrlDb) (peer : PeerPubkey) : PeerSet :=
  ⟨db.getPeerSet.items.filter fun k => decide (k ≠ peer)⟩

theorem mem_others {db : CtrlDb} {peer k : PeerPubkey} :
    k ∈ (db.others peer).items ↔ k ∈ db.getPeerSet.items ∧ k ≠ peer :=
  List.mem_filter.trans (and_congr_right fun _ => decide_eq_true_iff)

theorem nodup_others (db : CtrlDb) (peer : PeerPubkey) :
    (db.others peer).items.Nodup := (nodup_getPeerSet db).filter _

/-- The peers, when one is removed. -/
theorem getPeerSet_remove {db db' : CtrlDb} {peer : PeerPubkey}
    (hpeers : db'.peers = db.peers.remove peer) :
    db'.getPeerSet.items.Perm (db.others peer).items := by
  refine (List.perm_ext_iff_of_nodup (nodup_getPeerSet db')
    (nodup_others db peer)).mpr fun k => ?_
  rw [mem_getPeerSet, mem_others, mem_getPeerSet, hpeers,
    SortedTable.get?_remove]
  by_cases hk : k = peer
  · simp [hk]
  · simp [hk]

theorem others_len {db : CtrlDb} {peer : PeerPubkey}
    (hin : db.getPeerSet.contains peer = true) :
    (db.others peer).len + 1 = db.getPeerSet.len := by
  have hmem : peer ∈ db.getPeerSet.items := of_decide_eq_true hin
  have hperm : (peer :: (db.others peer).items).Perm db.getPeerSet.items := by
    refine (List.perm_ext_iff_of_nodup (List.nodup_cons.mpr
      ⟨fun h => (mem_others.mp h).2 rfl, nodup_others db peer⟩)
      (nodup_getPeerSet db)).mpr fun k => ?_
    rw [List.mem_cons, mem_others]
    constructor
    · rintro (rfl | ⟨hk, _⟩)
      · exact hmem
      · exact hk
    · intro hk
      by_cases heq : k = peer
      · exact Or.inl heq
      · exact Or.inr ⟨hk, heq⟩
  exact hperm.length_eq

/-! ## The tables -/

/-- Only peers have votes to add or to remove one standing, for those who are not
peers and for those who are; there is a peer; and no vote to remove one is left
undecided. -/
structure Tidy (db : CtrlDb) : Prop where
  adds : ∀ k c, db.addPeerVotes.get? k = some c →
    (db.peers.get? k).isSome = true ∧ db.peers.get? c = none
  removes : ∀ k c, db.removePeerVotes.get? k = some c →
    (db.peers.get? k).isSome = true ∧ (db.peers.get? c).isSome = true
  manned : db.getPeerSet.len ≠ 0
  few : ∀ k, countVotes db.removePeerVotes db.getPeerSet k <
    (NumPeers.mk db.getPeerSet.len).threshold

/-- A new vote takes its voter away from every other choice. -/
theorem countVotes_insert_le {votes : SortedTable PeerPubkey PeerPubkey}
    {voter c : PeerPubkey} {peerSet : PeerSet} {k : PeerPubkey} (hk : k ≠ c) :
    countVotes (votes.insert voter c) peerSet k ≤ countVotes votes peerSet k := by
  refine Tally.count_le fun v _ hv => ?_
  rcases SortedTable.get?_insert_eq_some hv with ⟨_, heq⟩ | hold
  · exact absurd heq hk
  · exact hold

theorem countVotes_retain_le {votes : SortedTable PeerPubkey PeerPubkey}
    {p : PeerPubkey → PeerPubkey → Bool} {peerSet : PeerSet} {k : PeerPubkey} :
    countVotes (votes.retain p) peerSet k ≤ countVotes votes peerSet k :=
  Tally.count_le fun _ _ hv => (SortedTable.get?_retain_eq_some.mp hv).1

theorem Tidy.insert_adds {db : CtrlDb} (h : Tidy db) {voter peer : PeerPubkey}
    (hvoter : db.getPeerSet.contains voter = true)
    (hnot : db.getPeerSet.contains peer = false) {k c : PeerPubkey}
    (hget : (db.addPeerVotes.insert voter peer).get? k = some c) :
    (db.peers.get? k).isSome = true ∧ db.peers.get? c = none := by
  rcases SortedTable.get?_insert_eq_some hget with ⟨rfl, rfl⟩ | hold
  · exact ⟨contains_getPeerSet.mp hvoter, not_contains_getPeerSet.mp hnot⟩
  · exact h.adds k c hold

theorem Tidy.insert_removes {db : CtrlDb} (h : Tidy db) {voter peer : PeerPubkey}
    (hvoter : db.getPeerSet.contains voter = true)
    (hin : db.getPeerSet.contains peer = true) {k c : PeerPubkey}
    (hget : (db.removePeerVotes.insert voter peer).get? k = some c) :
    (db.peers.get? k).isSome = true ∧ (db.peers.get? c).isSome = true := by
  rcases SortedTable.get?_insert_eq_some hget with ⟨rfl, rfl⟩ | hold
  · exact ⟨contains_getPeerSet.mp hvoter, contains_getPeerSet.mp hin⟩
  · exact h.removes k c hold

/-- Adding a peer takes away no vote to add or to remove another, and it has none
itself. -/
theorem countVotes_added {db db' : CtrlDb} {peer : PeerPubkey}
    {votes : SortedTable PeerPubkey PeerPubkey}
    (hpeers : db'.peers = db.peers.insert peer ())
    (hnot : db.peers.get? peer = none) (hnone : votes.get? peer = none)
    (k : PeerPubkey) :
    countVotes votes db'.getPeerSet k = countVotes votes db.getPeerSet k := by
  refine (Tally.count_perm (getPeerSet_insert hpeers hnot)).trans ?_
  rw [Tally.count_cons, hnone]
  exact Nat.add_zero _

/-- Those who voted for the removed peer leave too few for any other. -/
theorem countVotes_others_lt {db : CtrlDb} {peer k : PeerPubkey}
    {votes : SortedTable PeerPubkey PeerPubkey}
    (hin : db.getPeerSet.contains peer = true) (hlast : db.getPeerSet.len ≠ 1)
    (henough : (NumPeers.mk db.getPeerSet.len).threshold ≤
      countVotes votes db.getPeerSet peer) (hk : k ≠ peer) :
    countVotes votes (db.others peer) k <
      (NumPeers.mk (db.others peer).len).threshold := by
  have hlen := others_len hin
  have hle : countVotes votes (db.others peer) k ≤
      countVotes votes db.getPeerSet k := Tally.count_filter_le _
  have hshare : countVotes votes db.getPeerSet k +
      countVotes votes db.getPeerSet peer ≤ db.getPeerSet.len :=
    Tally.count_add_count_le hk
  simp only [NumPeers.threshold, NumPeers.maxFaulty] at henough ⊢
  omega

/-- The tables after a removal. -/
theorem Tidy.removed {db db₁ : CtrlDb} (h : Tidy db) {voter peer : PeerPubkey}
    (hvoter : db.getPeerSet.contains voter = true)
    (hin : db.getPeerSet.contains peer = true) (hlast : db.getPeerSet.len ≠ 1)
    (henough : (NumPeers.mk db.getPeerSet.len).threshold ≤
      countVotes (db.removePeerVotes.insert voter peer) db.getPeerSet peer)
    (hpeers : db₁.peers = db.peers.remove peer)
    (hremoves : db₁.removePeerVotes =
      (db.removePeerVotes.insert voter peer).retain
        fun k vote => db₁.getPeerSet.contains k && decide (vote ≠ peer))
    (hadds : db₁.addPeerVotes = db.addPeerVotes.retain
      fun k _ => db₁.getPeerSet.contains k) : Tidy db₁ := by
  have hperm := getPeerSet_remove hpeers
  have hlen : db₁.getPeerSet.len = (db.others peer).len := hperm.length_eq
  have hothers := others_len hin
  have hne := h.manned
  refine ⟨fun k c hget => ?_, fun k c hget => ?_, by omega, fun k => ?_⟩
  · rw [hadds, SortedTable.get?_retain_eq_some] at hget
    refine ⟨contains_getPeerSet.mp hget.2, ?_⟩
    rw [hpeers, SortedTable.get?_remove, (h.adds k c hget.1).2]
    exact ite_self _
  · rw [hremoves, SortedTable.get?_retain_eq_some, Bool.and_eq_true,
      decide_eq_true_iff] at hget
    obtain ⟨hold, hk, hc⟩ := hget
    refine ⟨contains_getPeerSet.mp hk, ?_⟩
    rw [hpeers, SortedTable.get?_remove, if_neg hc]
    exact (h.insert_removes hvoter hin hold).2
  · rw [hlen]
    have hcount : countVotes db₁.removePeerVotes db₁.getPeerSet k =
        countVotes db₁.removePeerVotes (db.others peer) k :=
      Tally.count_perm hperm
    rw [hcount, hremoves]
    by_cases hk : k = peer
    · have hzero : countVotes ((db.removePeerVotes.insert voter peer).retain
          fun k vote => db₁.getPeerSet.contains k && decide (vote ≠ peer))
          (db.others peer) k = 0 := by
        refine Tally.count_eq_zero fun v _ hv => ?_
        rw [SortedTable.get?_retain_eq_some, Bool.and_eq_true,
          decide_eq_true_iff] at hv
        exact hv.2.2 hk
      rw [hzero]
      have hleft : (db.others peer).len ≠ 0 := by omega
      exact NumPeers.threshold_pos hleft
    · exact lt_of_le_of_lt countVotes_retain_le
        (countVotes_others_lt hin hlast henough hk)

theorem step_tidy {inits : ModulesInits} (db : CtrlDb) (op : CtrlOp)
    (h : Tidy db) : Tidy (db.step inits op) := by
  unfold step
  split
  · next db' effects hok =>
      obtain ⟨hvoter, vote, _, hcase⟩ := processCitem_cases hok
      cases hcase with
      | addRecorded peer hnot hfew =>
          refine ⟨fun k c hget => h.insert_adds hvoter hnot hget, h.removes,
            h.manned, h.few⟩
      | added peer _ hnot henough hdb =>
          have hfree := not_contains_getPeerSet.mp hnot
          have hpeers : db'.peers = db.peers.insert peer () := by rw [hdb]
          have hgrow : ∀ k, (db.peers.get? k).isSome = true →
              (db'.peers.get? k).isSome = true := by
            intro k hk
            rw [hpeers, SortedTable.get?_insert]
            split
            · rfl
            · exact hk
          have hlen : db'.getPeerSet.len = db.getPeerSet.len + 1 :=
            (getPeerSet_insert hpeers hfree).length_eq
          have hnone : db.removePeerVotes.get? peer = none := by
            cases hget : db.removePeerVotes.get? peer with
            | none => rfl
            | some c =>
                have := (h.removes peer c hget).1
                rw [hfree] at this
                cases this
          refine ⟨fun k c hget => ?_, fun k c hget => ?_, by omega, fun k => ?_⟩
          · rw [hdb, SortedTable.get?_retain_eq_some, decide_eq_true_iff] at hget
            obtain ⟨hk, hc⟩ := h.insert_adds hvoter hnot hget.1
            refine ⟨hgrow k hk, ?_⟩
            rw [hpeers, SortedTable.get?_insert, if_neg hget.2]
            exact hc
          · rw [hdb] at hget
            obtain ⟨hk, hc⟩ := h.removes k c hget
            exact ⟨hgrow k hk, hgrow c hc⟩
          · have hvotes : db'.removePeerVotes = db.removePeerVotes := by rw [hdb]
            rw [hvotes, countVotes_added hpeers hfree hnone, hlen]
            exact lt_of_lt_of_le (h.few k) (NumPeers.threshold_mono (Nat.le_succ _))
      | repeated => exact h
      | removeRecorded peer hin hlast hnew hfew =>
          refine ⟨h.adds, fun k c hget => h.insert_removes hvoter hin hget,
            h.manned, fun k => ?_⟩
          by_cases hk : k = peer
          · rw [hk]
            exact hfew
          · exact lt_of_le_of_lt (countVotes_insert_le hk) (h.few k)
      | removed peer db₁ hin hlast hnew henough hpeers hdb =>
          have htidy : Tidy db₁ := h.removed hvoter hin hlast henough hpeers
            (congrArg removePeerVotes hdb) (congrArg addPeerVotes hdb)
          exact ⟨htidy.adds, htidy.removes, htidy.manned, htidy.few⟩
      | moduleRecorded kind version hinit hfree _ hdb =>
          rw [hdb]
          exact ⟨h.adds, h.removes, h.manned, h.few⟩
      | moduleAdded => exact ⟨h.adds, h.removes, h.manned, h.few⟩
      | versionRecorded id minor config db₁ hdb =>
          have htidy : Tidy db₁ := by
            rw [hdb]
            exact ⟨h.adds, h.removes, h.manned, h.few⟩
          exact ⟨htidy.adds, htidy.removes, htidy.manned, htidy.few⟩
  · exact h

/-! ## Votes to add a module -/

/-- The peer has a vote standing for the kind in the major version. -/
def VotesFor (db : CtrlDb) (peer : PeerPubkey) (kind : ModuleKind) (major : ℕ) :
    Prop :=
  ∃ v : ConsensusVersion, db.addModuleVotes.get? peer = some (kind, v) ∧
    v.major = major

theorem matchingVotes_length_eq {db : CtrlDb} {peerSet : PeerSet}
    {kind : ModuleKind} {major : ℕ} :
    (db.matchingVotes peerSet kind major).length = peerSet.len ↔
      ∀ k ∈ peerSet.items, db.VotesFor k kind major := by
  unfold matchingVotes PeerSet.len
  rw [List.filterMap_length_eq_length]
  refine forall_congr' fun k => forall_congr' fun _ => ?_
  unfold VotesFor
  cases db.addModuleVotes.get? k with
  | none => simp
  | some e =>
      obtain ⟨kind', v⟩ := e
      by_cases heq : kind' = kind ∧ v.major = major
      · obtain ⟨rfl, rfl⟩ := heq
        simp
      · simp only [Option.bind_some, if_neg heq]
        refine iff_of_false (by simp) ?_
        rintro ⟨_, hv, hmajor⟩
        cases hv
        exact heq ⟨rfl, hmajor⟩

/-- The kinds that are configured. -/
theorem any_kind_iff {configs : ModulesConfigs} {kind : ModuleKind} :
    (configs.values.any fun c => decide (c.kind = kind)) = true ↔
      ∃ id, (configs.get? id).map ModuleConfig.kind = some kind := by
  rw [List.any_eq_true]
  constructor
  · rintro ⟨c, hc, hkind⟩
    obtain ⟨id, hid⟩ := SortedTable.mem_values.mp hc
    exact ⟨id, by rw [hid, Option.map_some, of_decide_eq_true hkind]⟩
  · rintro ⟨id, hid⟩
    obtain ⟨c, hc, rfl⟩ := Option.map_eq_some_iff.mp hid
    exact ⟨c, SortedTable.mem_values.mpr ⟨id, hc⟩, decide_eq_true rfl⟩

theorem admits_congr {inits : ModulesInits} {db db' : CtrlDb} {kind : ModuleKind}
    (h : ∀ id, (db'.modulesConfigs.get? id).map ModuleConfig.kind =
      (db.modulesConfigs.get? id).map ModuleConfig.kind) :
    Admits inits db' kind ↔ Admits inits db kind := by
  unfold Admits
  rw [any_kind_iff, any_kind_iff]
  simp only [h]

theorem not_all_vote_iff {db : CtrlDb} {peerSet : PeerSet} {kind : ModuleKind}
    {major : ℕ} :
    (db.matchingVotes peerSet kind major).length ≠ peerSet.len ↔
      ∃ k ∈ peerSet.items, ¬ db.VotesFor k kind major := by
  rw [ne_eq, matchingVotes_length_eq]
  push Not
  exact Iff.rfl

/-! ## Removals -/

/-- The vote of `voter` is the one that removes `peer`. -/
def Removes (db : CtrlDb) (voter peer : PeerPubkey) : Prop :=
  db.getPeerSet.contains voter = true ∧ db.getPeerSet.contains peer = true ∧
    db.getPeerSet.len ≠ 1 ∧ db.getPeerSet.len ≤ 255 ∧
    db.removePeerVotes.get? voter ≠ some peer ∧
    (NumPeers.mk db.getPeerSet.len).threshold ≤
      countVotes (db.removePeerVotes.insert voter peer) db.getPeerSet peer

instance (db : CtrlDb) (voter peer : PeerPubkey) :
    Decidable (Removes db voter peer) := inferInstanceAs (Decidable (_ ∧ _))

/-- Without `peer` nothing is due: nobody to be added is one vote short of a
threshold that falls with it, and no module that may be added has the votes of all
the others. -/
def NonePending (inits : ModulesInits) (db : CtrlDb) (peer : PeerPubkey) : Prop :=
  (db.getPeerSet.len % 3 ≠ 1 → ∀ e ∈ db.addPeerVotes.entries,
    countVotes db.addPeerVotes (db.others peer) e.2 + 1 ≠
      (NumPeers.mk db.getPeerSet.len).threshold) ∧
  ∀ e ∈ db.addModuleVotes.entries, Admits inits db e.2.1 →
    (db.matchingVotes (db.others peer) e.2.1 e.2.2.major).length ≠
      (db.others peer).len

instance (inits : ModulesInits) (db : CtrlDb) (peer : PeerPubkey) :
    Decidable (NonePending inits db peer) :=
  inferInstanceAs (Decidable ((_ → ∀ e ∈ _, _) ∧ ∀ e ∈ _, _))

/-- If the op removes a peer, nothing is due without it. -/
def CompletesNothing (inits : ModulesInits) (db : CtrlDb) (op : CtrlOp) : Prop :=
  match op.citem with
  | some (.voteRemovePeer peer) =>
      Removes db op.voter peer → NonePending inits db peer
  | _ => True

instance (inits : ModulesInits) (db : CtrlDb) (op : CtrlOp) :
    Decidable (CompletesNothing inits db op) := by
  unfold CompletesNothing
  split <;> infer_instance

/-- The tables after a removal, with the votes that are left. -/
structure Removed (db : CtrlDb) (peer : PeerPubkey) (db' : CtrlDb) : Prop where
  peers : db'.peers = db.peers.remove peer
  adds : db'.addPeerVotes = db.addPeerVotes.retain
    fun k _ => db'.getPeerSet.contains k
  modules : db'.addModuleVotes = db.addModuleVotes
  kinds : ∀ id, (db'.modulesConfigs.get? id).map ModuleConfig.kind =
    (db.modulesConfigs.get? id).map ModuleConfig.kind

variable {inits : ModulesInits} {db db' : CtrlDb} {peer : PeerPubkey}

theorem Removed.countVotes_eq (h : Removed db peer db') (k : PeerPubkey) :
    countVotes db'.addPeerVotes db'.getPeerSet k =
      countVotes db.addPeerVotes (db.others peer) k := by
  have hperm := getPeerSet_remove h.peers
  refine (Tally.count_perm hperm).trans (le_antisymm ?_ ?_)
  · rw [h.adds]
    exact countVotes_retain_le
  · refine Tally.count_le fun v hv hvote => ?_
    rw [h.adds, SortedTable.get?_retain_eq_some]
    exact ⟨hvote, decide_eq_true (hperm.mem_iff.mpr hv)⟩

theorem Removed.not_all_vote_iff (h : Removed db peer db') {kind : ModuleKind}
    {major : ℕ} :
    (db'.matchingVotes db'.getPeerSet kind major).length ≠ db'.getPeerSet.len ↔
      (db.matchingVotes (db.others peer) kind major).length ≠
        (db.others peer).len := by
  rw [CtrlDb.not_all_vote_iff, CtrlDb.not_all_vote_iff]
  refine exists_congr fun k => and_congr (getPeerSet_remove h.peers).mem_iff ?_
  unfold VotesFor
  rw [h.modules]

/-- Nothing is due after a removal, if nothing was due without the peer. -/
theorem Removed.settled_iff (h : Removed db peer db') (htidy : Tidy db)
    (htidy' : Tidy db') (hin : db.getPeerSet.contains peer = true)
    (hset : Settled inits db) : Settled inits db' ↔ NonePending inits db peer := by
  have hperm := getPeerSet_remove h.peers
  have hlen : db'.getPeerSet.len = (db.others peer).len := hperm.length_eq
  have hothers := others_len hin
  have hpos := htidy'.manned
  constructor
  · rintro ⟨hadds, _, hmodules⟩
    refine ⟨fun hfall e he hshort => ?_, fun e he hadmits => ?_⟩
    · have hnot : db'.getPeerSet.contains e.2 = false := by
        rw [not_contains_getPeerSet, h.peers, SortedTable.get?_remove,
          (htidy.adds e.1 e.2 (SortedTable.mem_entries'.mp he)).2]
        exact ite_self _
      have hlt := hadds e.2 hnot
      rw [h.countVotes_eq, hlen] at hlt
      simp only [NumPeers.threshold, NumPeers.maxFaulty] at hlt hshort
      omega
    · exact h.not_all_vote_iff.mp
        (hmodules e.2.1 _ ((admits_congr h.kinds).mpr hadmits))
  · rintro ⟨hadds, hmodules⟩
    refine ⟨fun k hk => ?_, fun _ k _ => htidy'.few k,
      fun kind major hadmits => ?_⟩
    · rw [h.countVotes_eq, hlen]
      by_contra hge
      have hsome : Tally.count db.addPeerVotes.get? (db.others peer).items k ≠ 0 := by
        intro hzero
        refine hge ?_
        show Tally.count _ _ k < _
        rw [hzero]
        have hleft : (db.others peer).len ≠ 0 := by omega
        exact NumPeers.threshold_pos hleft
      obtain ⟨v, _, hv⟩ := Tally.exists_vote hsome
      have hfree : db.getPeerSet.contains k = false :=
        not_contains_getPeerSet.mpr (htidy.adds v k hv).2
      have hbefore := hset.adds k hfree
      have hle : countVotes db.addPeerVotes (db.others peer) k ≤
          countVotes db.addPeerVotes db.getPeerSet k := Tally.count_filter_le _
      have hshort := fun hfall => hadds hfall (v, k)
        (SortedTable.mem_entries.mpr hv)
      simp only [NumPeers.threshold, NumPeers.maxFaulty] at hbefore hshort hge
      omega
    · refine h.not_all_vote_iff.mpr fun hall => ?_
      rw [hlen] at hpos
      obtain ⟨k, hk⟩ := List.exists_mem_of_length_pos (Nat.pos_of_ne_zero hpos)
      obtain ⟨v, hv, rfl⟩ := matchingVotes_length_eq.mp hall k hk
      exact hmodules (k, (kind, v)) (SortedTable.mem_entries.mpr hv)
        ((admits_congr h.kinds).mp hadmits) hall

/-! ## Steps -/

variable {op : CtrlOp}

/-- A vote that makes up the number for the removal removes the peer. -/
theorem Removes.removed {voter : PeerPubkey} (h : Removes db voter peer) :
    Removed db peer (db.step inits ⟨voter, some (.voteRemovePeer peer)⟩) := by
  obtain ⟨hvoter, hin, hlast, hsize, hnew, henough⟩ := h
  have hok : ∃ res, db.processCitem inits voter db.getPeerSet
      (some (.voteRemovePeer peer)) = .ok res := by
    unfold processCitem processCitemVoteRemovePeer
    rw [Outcome.assertThat_of hvoter]
    show ∃ res, (Outcome.ensure _ _ >>= _) = _
    rw [Outcome.ensure_of hin, Outcome.ensure_of hlast, if_neg hnew,
      toNumPeers_of_le hsize]
    exact ⟨_, if_pos henough⟩
  obtain ⟨⟨db', effects⟩, hok⟩ := hok
  have hstep : db.step inits ⟨voter, some (.voteRemovePeer peer)⟩ = db' := by
    unfold step
    rw [hok]
  rw [hstep]
  obtain ⟨_, vote, hvote, hcase⟩ := processCitem_cases hok
  cases hvote
  cases hcase with
  | repeated _ _ _ hsame => exact absurd hsame hnew
  | removeRecorded _ _ _ _ hfew => exact absurd henough (not_le.mpr hfew)
  | removed _ db₁ _ _ _ _ hpeers hdb =>
      have hmodules : db₁.addModuleVotes = db.addModuleVotes :=
        (congrArg addModuleVotes hdb :)
      have hconfigs : db₁.modulesConfigs = db.modulesConfigs :=
        (congrArg modulesConfigs hdb :)
      refine ⟨hpeers, congrArg addPeerVotes hdb, hmodules, fun id => ?_⟩
      rw [checkModuleVersionUpgrades_kind, hconfigs]

/-- What not all vote for, not all vote for when peers come in. -/
theorem not_all_vote_of_subset {db db' : CtrlDb} {kind : ModuleKind} {major : ℕ}
    (hvotes : db'.addModuleVotes = db.addModuleVotes)
    (hpeers : ∀ k ∈ db.getPeerSet.items, k ∈ db'.getPeerSet.items)
    (h : (db.matchingVotes db.getPeerSet kind major).length ≠ db.getPeerSet.len) :
    (db'.matchingVotes db'.getPeerSet kind major).length ≠ db'.getPeerSet.len := by
  obtain ⟨k, hk, hno⟩ := not_all_vote_iff.mp h
  refine not_all_vote_iff.mpr ⟨k, hpeers k hk, ?_⟩
  unfold VotesFor
  rw [hvotes]
  exact hno

/-- Adding a peer leaves too few votes for the others, which now need no fewer. -/
theorem Settled.adds_added (hset : Settled inits db) (htidy : Tidy db)
    {voter peer : PeerPubkey} {db' : CtrlDb}
    (hvoter : db.getPeerSet.contains voter = true)
    (hfree : db.getPeerSet.contains peer = false)
    (hdb : db' = { db with
      addPeerVotes := (db.addPeerVotes.insert voter peer).retain fun _ vote =>
        decide (vote ≠ peer)
      peers := db.peers.insert peer () })
    {k : PeerPubkey} (hk : db'.getPeerSet.contains k = false) :
    countVotes db'.addPeerVotes db'.getPeerSet k <
      (NumPeers.mk db'.getPeerSet.len).threshold := by
  have hnone := not_contains_getPeerSet.mp hfree
  have hpeers : db'.peers = db.peers.insert peer () := by rw [hdb]
  have hlen : db'.getPeerSet.len = db.getPeerSet.len + 1 :=
    (getPeerSet_insert hpeers hnone).length_eq
  have hnew : db'.addPeerVotes.get? peer = none := by
    cases hget : db'.addPeerVotes.get? peer with
    | none => rfl
    | some c =>
        rw [hdb, SortedTable.get?_retain_eq_some] at hget
        have hin := (htidy.insert_adds hvoter hfree hget.1).1
        rw [hnone] at hin
        cases hin
  have hne : k ≠ peer := by
    rintro rfl
    rw [not_contains_getPeerSet, hpeers, SortedTable.get?_insert_self] at hk
    cases hk
  have hout : db.getPeerSet.contains k = false := by
    rw [not_contains_getPeerSet, hpeers, SortedTable.get?_insert_of_ne hne] at hk
    exact not_contains_getPeerSet.mpr hk
  rw [countVotes_added hpeers hnone hnew, hlen, hdb]
  refine lt_of_lt_of_le (lt_of_le_of_lt ?_ (hset.adds k hout))
    (NumPeers.threshold_mono (Nat.le_succ _))
  exact countVotes_retain_le.trans (countVotes_insert_le hne)

/-- Whatever removes no peer leaves nothing due. -/
theorem step_settled_of_not_removes (htidy : Tidy db)
    (hset : Settled inits db)
    (hnot : ∀ peer, op.citem = some (.voteRemovePeer peer) →
      ¬ Removes db op.voter peer) : Settled inits (db.step inits op) := by
  have htidy' : Tidy (db.step inits op) := step_tidy db op htidy
  unfold step at htidy' ⊢
  split at htidy'
  · next db' effects hok =>
      obtain ⟨hvoter, vote, hvote, hcase⟩ := processCitem_cases hok
      suffices hclauses : (∀ k, db'.getPeerSet.contains k = false →
          countVotes db'.addPeerVotes db'.getPeerSet k <
            (NumPeers.mk db'.getPeerSet.len).threshold) ∧
          ∀ kind major, Admits inits db' kind →
            (db'.matchingVotes db'.getPeerSet kind major).length ≠
              db'.getPeerSet.len from
        ⟨hclauses.1, fun _ k _ => htidy'.few k, hclauses.2⟩
      cases hcase with
      | addRecorded peer hfree hfew =>
          refine ⟨fun k hk => ?_, hset.modules⟩
          by_cases heq : k = peer
          · rw [heq]
            exact hfew
          · exact lt_of_le_of_lt (countVotes_insert_le heq) (hset.adds k hk)
      | added peer _ hfree henough hdb =>
          have hvotes : db'.addModuleVotes = db.addModuleVotes := by rw [hdb]
          have hpeers : db'.peers = db.peers.insert peer () := by rw [hdb]
          have hperm := getPeerSet_insert hpeers (not_contains_getPeerSet.mp hfree)
          refine ⟨fun k => hset.adds_added htidy hvoter hfree hdb,
            fun kind major hadmits => ?_⟩
          refine not_all_vote_of_subset hvotes (fun k hk => ?_)
            (hset.modules kind major ?_)
          · exact hperm.mem_iff.mpr (List.mem_cons_of_mem _ hk)
          · rw [hdb] at hadmits
            exact hadmits
      | repeated => exact ⟨hset.adds, hset.modules⟩
      | removeRecorded => exact ⟨hset.adds, hset.modules⟩
      | removed peer db₁ hin hlast hnew henough _ _ hsize =>
          exact absurd ⟨hvoter, hin, hlast, hsize, hnew, henough⟩
            (hnot peer hvote)
      | moduleRecorded kind version hinit hfree _ hdb hfew =>
          have hadds : db'.addPeerVotes = db.addPeerVotes := by rw [hdb]
          have hpeers : db'.getPeerSet = db.getPeerSet := by rw [hdb]; rfl
          rw [hadds, hpeers]
          refine ⟨hset.adds, fun kind' major' _ => ?_⟩
          by_cases hsame : kind' = kind ∧ major' = version.major
          · rw [hsame.1, hsame.2]
            exact hfew
          · -- the voter has voted for something else
            refine not_all_vote_iff.mpr ⟨op.voter, of_decide_eq_true hvoter, ?_⟩
            rintro ⟨v, hv, hmajor⟩
            rw [hdb, SortedTable.get?_insert_self] at hv
            cases hv
            exact hsame ⟨rfl, hmajor.symm⟩
      | moduleAdded kind version minor hinit hfree id =>
          refine ⟨hset.adds, fun kind' major' _ => ?_⟩
          -- the voter has no vote left
          refine not_all_vote_iff.mpr ⟨op.voter, of_decide_eq_true hvoter, ?_⟩
          rintro ⟨v, hv, _⟩
          rw [SortedTable.get?_retain_eq_some, SortedTable.get?_insert_self,
            decide_eq_true_iff] at hv
          exact hv.2 (congrArg Prod.fst (Option.some.inj hv.1)).symm
      | versionRecorded id minor config db₁ hdb =>
          have hadds : db₁.addPeerVotes = db.addPeerVotes := by rw [hdb]
          have hvotes : db₁.addModuleVotes = db.addModuleVotes := by rw [hdb]
          have hpeers : db₁.getPeerSet = db.getPeerSet := by rw [hdb]; rfl
          refine ⟨?_, fun kind major hadmits => ?_⟩
          · show ∀ k, db₁.getPeerSet.contains k = false → countVotes
              db₁.addPeerVotes db₁.getPeerSet k <
                (NumPeers.mk db₁.getPeerSet.len).threshold
            rw [hadds, hpeers]
            exact hset.adds
          · have hadmits' : Admits inits db kind := by
              rw [admits_congr (checkModuleVersionUpgrades_kind db₁ _), hdb]
                at hadmits
              exact hadmits
            refine not_all_vote_of_subset hvotes (fun k hk => ?_)
              (hset.modules kind major hadmits')
            show k ∈ db₁.getPeerSet.items
            rw [hpeers]
            exact hk
  · exact hset

/-- One op leaves something due exactly when it removes a peer and something is due
without it. -/
theorem step_settled_iff (htidy : Tidy db) (hset : Settled inits db) :
    Settled inits (db.step inits op) ↔ CompletesNothing inits db op := by
  obtain ⟨voter, citem⟩ := op
  by_cases hremoves : ∃ peer, citem = some (.voteRemovePeer peer) ∧
      Removes db voter peer
  · obtain ⟨peer, rfl, h⟩ := hremoves
    refine (h.removed.settled_iff htidy (step_tidy db _ htidy) h.2.1 hset).trans ?_
    exact ⟨fun hnone _ => hnone, fun hc => hc h⟩
  · refine iff_of_true (step_settled_of_not_removes htidy hset ?_) ?_
    · intro peer hcitem h
      exact hremoves ⟨peer, hcitem, h⟩
    · unfold CompletesNothing
      split
      · next peer hcitem => exact fun h => absurd ⟨peer, hcitem, h⟩ hremoves
      · exact trivial

/-! ## Runs -/

variable {id : ModuleId} {version : ConsensusVersion} {peerSet : PeerSet}

theorem bootstrap_len (hne : peerSet.items ≠ []) :
    (empty.bootstrapConsensus id version peerSet).getPeerSet.len ≠ 0 := by
  rw [getPeerSet_len_ne_zero]
  obtain ⟨k, hk⟩ := List.exists_mem_of_ne_nil _ hne
  exact ⟨k, bootstrap_peers.mpr (decide_eq_true hk)⟩

theorem bootstrap_tidy (hne : peerSet.items ≠ []) :
    Tidy (empty.bootstrapConsensus id version peerSet) where
  adds k c hget := by cases hget
  removes k c hget := by cases hget
  manned := bootstrap_len hne
  few k := by
    refine lt_of_eq_of_lt ?_ (NumPeers.threshold_pos (bootstrap_len hne))
    exact Tally.count_eq_zero fun v _ hv => by cases hv

theorem bootstrap_settled (hne : peerSet.items ≠ []) :
    Settled inits (empty.bootstrapConsensus id version peerSet) where
  adds k _ := by
    refine lt_of_eq_of_lt ?_ (NumPeers.threshold_pos (bootstrap_len hne))
    exact Tally.count_eq_zero fun v _ hv => by cases hv
  removes _ k _ := (bootstrap_tidy hne).few k
  modules kind major _ := by
    have hlen : (empty.bootstrapConsensus id version peerSet).getPeerSet.len ≠ 0 :=
      bootstrap_len hne
    obtain ⟨k, hk⟩ := List.exists_mem_of_length_pos (Nat.pos_of_ne_zero hlen)
    refine not_all_vote_iff.mpr ⟨k, hk, ?_⟩
    rintro ⟨v, hv, _⟩
    cases hv

/-- Without a peer no vote is needed to add one. -/
theorem bootstrap_not_settled (hnil : peerSet.items = []) :
    ¬ Settled inits (empty.bootstrapConsensus id version peerSet) := by
  intro hset
  obtain ⟨items⟩ := peerSet
  subst hnil
  have hlen : (empty.bootstrapConsensus id version ⟨[]⟩).getPeerSet.len = 0 := rfl
  have hlt := hset.adds 0 rfl
  rw [hlen] at hlt
  exact Nat.not_lt_zero _ hlt

/-- Nothing is due in any state of a run from bootstrap, exactly when there is a peer
and nothing is due without a peer at the time it is removed. -/
theorem settled_iff_completesNothing (inits : ModulesInits) (id : ModuleId)
    (version : ConsensusVersion) (peerSet : PeerSet) (ops : List CtrlOp) :
    (∀ before, before <+: ops → Settled inits
        (run inits (empty.bootstrapConsensus id version peerSet) before)) ↔
      peerSet.items ≠ [] ∧ Trail.Guarded (step inits) (CompletesNothing inits)
        (empty.bootstrapConsensus id version peerSet) ops := by
  by_cases hnil : peerSet.items = []
  · refine iff_of_false (fun h => ?_) fun h => h.1 hnil
    exact bootstrap_not_settled hnil (h [] List.nil_prefix)
  · have hruns : Trail.Guarded (step inits) (CompletesNothing inits)
          (empty.bootstrapConsensus id version peerSet) ops ↔
        ∀ before, before <+: ops → Settled inits
          (run inits (empty.bootstrapConsensus id version peerSet) before) :=
      Trail.guarded_iff (J := Tidy) step_tidy
        (fun _ _ htidy hset => step_settled_iff htidy hset) (bootstrap_tidy hnil)
        (bootstrap_settled hnil)
    exact hruns.symm.trans (and_iff_right hnil).symm

/-! ## Three peers, one of them removed -/

section Removal

/-- Three of four peers remove the fourth, while one vote to add a peer stands. -/
def removeFourthOps : List CtrlOp :=
  [⟨10, some (.voteAddPeer 20)⟩, ⟨11, some (.voteRemovePeer 13)⟩,
   ⟨12, some (.voteRemovePeer 13)⟩, ⟨10, some (.voteRemovePeer 13)⟩]

example : Trail.Guarded (step .empty) (CompletesNothing .empty)
    (empty.bootstrapConsensus 0 ⟨0, 0⟩ ⟨[10, 11, 12, 13]⟩) removeFourthOps := by
  decide +kernel

/-- Two of three peers vote to add a peer, which is one vote short. -/
def removeThirdOps : List CtrlOp :=
  [⟨10, some (.voteAddPeer 20)⟩, ⟨11, some (.voteAddPeer 20)⟩,
   ⟨10, some (.voteRemovePeer 12)⟩, ⟨11, some (.voteRemovePeer 12)⟩,
   ⟨12, some (.voteRemovePeer 12)⟩]

/-- Once the third is gone the two votes are enough, and nobody counts them. -/
theorem removal_leaves_vote_undecided :
    ¬ ∀ (inits : ModulesInits) (peerSet : PeerSet) (ops : List CtrlOp),
      peerSet.items ≠ [] → Settled inits
        (run inits (empty.bootstrapConsensus 0 ⟨0, 0⟩ peerSet) ops) := by
  intro h
  have hset := h .empty ⟨[10, 11, 12]⟩ removeThirdOps (List.cons_ne_nil _ _)
  exact absurd (hset.adds 20 (by decide +kernel)) (by decide +kernel)

end Removal

end CtrlDb

end Bfte
