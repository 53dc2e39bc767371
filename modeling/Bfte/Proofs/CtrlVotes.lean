import Bfte.Proofs.ParamsSchedule

/-!
# What a vote of consensus-ctrl does

`VoteCase` has one case for every way `process_citem` can go when it succeeds,
with the tables as they are afterwards. Everything that is proved about the votes
is read off it.
-/

namespace Bfte

namespace CtrlDb

/-- What a vote does when it is processed. -/
inductive VoteCase (inits : ModulesInits) (db : CtrlDb) (voter : PeerPubkey)
    (peerSet : PeerSet) : ConsensusCtrlCitem → CtrlDb → List CtrlEffect → Prop
  | addRecorded (peer : PeerPubkey)
      (hnot : db.getPeerSet.contains peer = false)
      (hfew : countVotes (db.addPeerVotes.insert voter peer) peerSet peer <
        (NumPeers.mk peerSet.len).threshold) :
      VoteCase inits db voter peerSet (.voteAddPeer peer)
        { db with addPeerVotes := db.addPeerVotes.insert voter peer } []
  | added (peer : PeerPubkey) (db' : CtrlDb)
      (hnot : db.getPeerSet.contains peer = false)
      (henough : (NumPeers.mk peerSet.len).threshold ≤
        countVotes (db.addPeerVotes.insert voter peer) peerSet peer)
      (hdb : db' = { db with
        addPeerVotes := (db.addPeerVotes.insert voter peer).retain fun _ vote =>
          decide (vote ≠ peer)
        peers := db.peers.insert peer () }) :
      VoteCase inits db voter peerSet (.voteAddPeer peer) db'
        [.addPeer peer, .consensusParamsChange db'.getPeerSet]
  | repeated (peer : PeerPubkey) (hin : db.getPeerSet.contains peer = true)
      (hlast : db.getPeerSet.len ≠ 1)
      (hsame : db.removePeerVotes.get? voter = some peer) :
      VoteCase inits db voter peerSet (.voteRemovePeer peer) db []
  | removeRecorded (peer : PeerPubkey)
      (hin : db.getPeerSet.contains peer = true)
      (hlast : db.getPeerSet.len ≠ 1)
      (hnew : db.removePeerVotes.get? voter ≠ some peer)
      (hfew : countVotes (db.removePeerVotes.insert voter peer) peerSet peer <
        (NumPeers.mk peerSet.len).threshold) :
      VoteCase inits db voter peerSet (.voteRemovePeer peer)
        { db with removePeerVotes := db.removePeerVotes.insert voter peer } []
  | removed (peer : PeerPubkey) (db₁ : CtrlDb)
      (hin : db.getPeerSet.contains peer = true)
      (hlast : db.getPeerSet.len ≠ 1)
      (hnew : db.removePeerVotes.get? voter ≠ some peer)
      (henough : (NumPeers.mk peerSet.len).threshold ≤
        countVotes (db.removePeerVotes.insert voter peer) peerSet peer)
      (hpeers : db₁.peers = db.peers.remove peer)
      (hdb : db₁ = { db with
        peers := db₁.peers
        removePeerVotes := (db.removePeerVotes.insert voter peer).retain
          fun k vote => db₁.getPeerSet.contains k && decide (vote ≠ peer)
        addPeerVotes := db.addPeerVotes.retain fun k _ =>
          db₁.getPeerSet.contains k })
      (hsize : peerSet.len ≤ 255) :
      VoteCase inits db voter peerSet (.voteRemovePeer peer)
        (db₁.checkModuleVersionUpgrades db₁.getPeerSet).1
        (.removePeer peer :: .consensusParamsChange db₁.getPeerSet ::
          (db₁.checkModuleVersionUpgrades db₁.getPeerSet).2)
  | moduleRecorded (kind : ModuleKind) (version : ConsensusVersion)
      (hinit : (inits.get? kind).isSome = true)
      (hfree : ¬ (inits.get? kind = some true ∧
        db.modulesConfigs.values.any fun c => decide (c.kind = kind)))
      (db' : CtrlDb)
      (hdb : db' = { db with
        addModuleVotes := db.addModuleVotes.insert voter (kind, version) })
      (hfew : (db'.matchingVotes peerSet kind version.major).length ≠
        peerSet.len) :
      VoteCase inits db voter peerSet (.voteAddModule kind version) db' []
  | moduleAdded (kind : ModuleKind) (version : ConsensusVersion) (minor : ℕ)
      (hinit : (inits.get? kind).isSome = true)
      (hfree : ¬ (inits.get? kind = some true ∧
        db.modulesConfigs.values.any fun c => decide (c.kind = kind)))
      (id : ModuleId)
      (hid : id = freeModuleId db.modulesConfigs db.modulesConfigs.entries.length 1)
      (db₁ : CtrlDb)
      (hdb : db₁ = { db with
        addModuleVotes := db.addModuleVotes.insert voter (kind, version) })
      (hall : (db₁.matchingVotes peerSet kind version.major).length = peerSet.len)
      (hminor : ((db₁.matchingVotes peerSet kind version.major).map
        ConsensusVersion.minor).min? = some minor) :
      VoteCase inits db voter peerSet (.voteAddModule kind version)
        { db with
          addModuleVotes := (db.addModuleVotes.insert voter (kind, version)).retain
            fun _ vote => decide (vote.1 ≠ kind)
          modulesConfigs := db.modulesConfigs.insert id
            ⟨kind, ⟨version.major, minor⟩⟩ }
        [.addModule kind id ⟨version.major, minor⟩]
  | versionRecorded (id : ModuleId) (minor : ℕ) (config : ModuleConfig)
      (db₁ : CtrlDb)
      (hdb : db₁ = { db with
        modulesVersionsVotes := db.modulesVersionsVotes.insert (toLex (voter, id))
          ⟨config.version.major, minor⟩ })
      (hconfig : db.modulesConfigs.get? id = some config) :
      VoteCase inits db voter peerSet (.voteModuleVersion id minor)
        (db₁.checkModuleVersionUpgrades peerSet).1
        (db₁.checkModuleVersionUpgrades peerSet).2

theorem processCitem_cases {inits : ModulesInits} {db db' : CtrlDb}
    {voter : PeerPubkey} {peerSet : PeerSet} {citem : Option ConsensusCtrlCitem}
    {effects : List CtrlEffect}
    (h : db.processCitem inits voter peerSet citem = .ok (db', effects)) :
    peerSet.contains voter = true ∧
      ∃ vote, citem = some vote ∧
        VoteCase inits db voter peerSet vote db' effects := by
  simp only [processCitem, Outcome.bind_eq_ok, Outcome.assertThat_eq_ok] at h
  obtain ⟨_, hvoter, h⟩ := h
  refine ⟨hvoter, ?_⟩
  split at h
  · cases h
  · next peer =>
      refine ⟨_, rfl, ?_⟩
      simp only [processCitemVoteAddPeer, Outcome.bind_eq_ok,
        Outcome.ensure_eq_ok, toNumPeers_eq_ok] at h
      obtain ⟨_, hnot, _, ⟨_, rfl⟩, h⟩ := h
      split at h
      · next henough =>
          cases h
          exact .added peer _ hnot henough rfl
      · next hfew =>
          cases h
          exact .addRecorded peer hnot (not_le.mp hfew)
  · next peer =>
      refine ⟨_, rfl, ?_⟩
      simp only [processCitemVoteRemovePeer, Outcome.bind_eq_ok,
        Outcome.ensure_eq_ok] at h
      obtain ⟨_, hin, _, hlast, h⟩ := h
      split at h
      · next hsame =>
          cases h
          exact .repeated peer hin hlast hsame
      · next hnew =>
          simp only [Outcome.bind_eq_ok, toNumPeers_eq_ok] at h
          obtain ⟨_, ⟨hsize, rfl⟩, h⟩ := h
          split at h
          · next henough =>
              cases h
              exact .removed peer { db with
                peers := _
                addPeerVotes := _
                removePeerVotes := _ } hin hlast hnew henough rfl rfl hsize
          · next hfew =>
              cases h
              exact .removeRecorded peer hin hlast hnew (not_le.mp hfew)
  · next kind version =>
      refine ⟨_, rfl, ?_⟩
      simp only [processCitemVoteAddModule, Outcome.bind_eq_ok,
        Outcome.ensure_eq_ok] at h
      obtain ⟨_, hinit, _, hfree, h⟩ := h
      split at h
      · next hall =>
        simp only [Outcome.bind_eq_ok, Outcome.expect_eq_ok, Outcome.pure_eq_ok] at h
        obtain ⟨minor, hminor, h⟩ := h
        cases h
        exact .moduleAdded kind version minor hinit hfree _ rfl _ rfl hall hminor
      · next hfew =>
          cases h
          exact .moduleRecorded kind version hinit hfree _ rfl hfew
  · next id minor =>
      refine ⟨_, rfl, ?_⟩
      simp only [processCitemVoteModuleVersion, Outcome.bind_eq_ok] at h
      obtain ⟨_, _, h⟩ := h
      split at h
      · cases h
      · next config hconfig =>
          cases h
          exact .versionRecorded id minor config _ rfl hconfig

/-! ## The versions of modules -/

/-- The module in a minor version that is not lower than the one given. -/
def raisedTo (minor : ℕ) (config : ModuleConfig) : ModuleConfig :=
  ⟨config.kind, ⟨config.version.major, max config.version.minor minor⟩⟩

theorem raisedTo_of_le {minor : ℕ} {config : ModuleConfig}
    (h : minor ≤ config.version.minor) : raisedTo minor config = config := by
  unfold raisedTo
  rw [max_eq_left h]

theorem mem_upgrades {db : CtrlDb} {s : PeerSet} {id : ModuleId} {config : ModuleConfig}
    {version : ConsensusVersion} :
    (id, config, version) ∈ db.upgrades s ↔ db.modulesConfigs.get? id = some config ∧
      ∃ agreed, db.agreedMinor s id = some agreed ∧ config.version.minor < agreed ∧
        version = (raisedTo agreed config).version := by
  unfold upgrades raisedTo
  rw [List.mem_filterMap]
  constructor
  · rintro ⟨⟨id', config'⟩, hmem, hu⟩
    simp only at hu
    split at hu
    · next agreed hagreed =>
        split at hu
        · next hlt =>
            cases hu
            exact ⟨SortedTable.mem_entries.mp hmem, agreed, hagreed, hlt,
              by rw [max_eq_right hlt.le]⟩
        · cases hu
    · cases hu
  · rintro ⟨hget, agreed, hagreed, hlt, rfl⟩
    refine ⟨(id, config), SortedTable.mem_entries.mpr hget, ?_⟩
    simp only [hagreed, if_pos hlt, max_eq_right hlt.le]

/-- Upgrades come in the order of the modules, one for each at most. -/
theorem pairwise_upgrades (db : CtrlDb) (s : PeerSet) :
    (db.upgrades s).Pairwise fun u u' => u.1 < u'.1 := by
  refine db.modulesConfigs.sorted.filterMap _ fun e e' hlt u hu u' hu' => ?_
  simp only at hu hu'
  split at hu
  · split at hu
    · cases hu
      split at hu'
      · split at hu'
        · cases hu'
          exact hlt
        · cases hu'
      · cases hu'
    · cases hu
  · cases hu

/-- An upgrade brings every module to what the peers agree on, if that is more. -/
theorem checkModuleVersionUpgrades_get? (db : CtrlDb) (s : PeerSet) (id : ModuleId) :
    (db.checkModuleVersionUpgrades s).1.modulesConfigs.get? id =
      (db.modulesConfigs.get? id).map (raisedTo ((db.agreedMinor s id).getD 0)) := by
  let l : List (ModuleId × ModuleConfig) := (db.upgrades s).map fun u =>
    (u.1, ⟨u.2.1.kind, u.2.2⟩)
  have hl : SortedTable.Sorted l := (pairwise_upgrades db s).map _ fun _ _ h => h
  have hfold : (db.checkModuleVersionUpgrades s).1.modulesConfigs =
      l.foldl (fun t e => t.insert e.1 e.2) db.modulesConfigs := by
    show _ = ((db.upgrades s).map _).foldl _ _
    rw [List.foldl_map]
    rfl
  have hmem : ∀ {config}, (id, config) ∈ l ↔ ∃ old agreed,
      db.modulesConfigs.get? id = some old ∧ db.agreedMinor s id = some agreed ∧
        old.version.minor < agreed ∧ config = raisedTo agreed old := by
    intro config
    simp only [l, List.mem_map, Prod.mk.injEq]
    constructor
    · rintro ⟨⟨_, old, version⟩, hu, rfl, rfl⟩
      obtain ⟨hget, agreed, hagreed, hlt, rfl⟩ := mem_upgrades.mp hu
      exact ⟨old, agreed, hget, hagreed, hlt, rfl⟩
    · rintro ⟨old, agreed, hget, hagreed, hlt, rfl⟩
      exact ⟨(id, old, _), mem_upgrades.mpr ⟨hget, agreed, hagreed, hlt, rfl⟩, rfl, rfl⟩
  have hkept : (∀ config, (id, config) ∉ l) →
      (⟨l, hl⟩ : SortedTable ModuleId ModuleConfig).get? id = none := fun h =>
    SortedTable.get?_eq_none.mpr h
  rw [hfold, SortedTable.get?_foldl_insert hl]
  cases hget : db.modulesConfigs.get? id with
  | none =>
      rw [hkept fun config hin => ?_]
      · rfl
      · obtain ⟨old, _, hold, _⟩ := hmem.mp hin
        rw [hget] at hold
        cases hold
  | some config =>
      by_cases hlt : config.version.minor < (db.agreedMinor s id).getD 0
      · obtain ⟨agreed, hagreed⟩ : ∃ agreed, db.agreedMinor s id = some agreed := by
          cases hagreed : db.agreedMinor s id with
          | none =>
              rw [hagreed] at hlt
              exact absurd hlt (Nat.not_lt_zero _)
          | some agreed => exact ⟨agreed, rfl⟩
        rw [hagreed] at hlt ⊢
        have hraised : (⟨l, hl⟩ : SortedTable ModuleId ModuleConfig).get? id =
            some (raisedTo agreed config) := SortedTable.mem_entries.mp
          (hmem.mpr ⟨config, agreed, hget, hagreed, hlt, rfl⟩ :)
        rw [hraised]
        rfl
      · rw [hkept fun config' hin => ?_, Option.none_or, Option.map_some,
          raisedTo_of_le (not_lt.mp hlt)]
        obtain ⟨old, agreed, hold, hagreed, hlt', _⟩ := hmem.mp hin
        obtain rfl : config = old := Option.some.inj (hget.symm.trans hold)
        rw [hagreed] at hlt
        exact hlt hlt'

/-- Upgrades change versions, not kinds. -/
theorem checkModuleVersionUpgrades_kind (db : CtrlDb) (s : PeerSet)
    (id : ModuleId) :
    ((db.checkModuleVersionUpgrades s).1.modulesConfigs.get? id).map
      ModuleConfig.kind = (db.modulesConfigs.get? id).map ModuleConfig.kind := by
  rw [checkModuleVersionUpgrades_get?, Option.map_map]
  rfl

/-! ## The peers that are left -/

/-- The versions of modules are all that an upgrade changes. -/
@[simp] theorem checkModuleVersionUpgrades_peers (db : CtrlDb) (s : PeerSet) :
    (db.checkModuleVersionUpgrades s).1.peers = db.peers := rfl

theorem getPeerSet_len (db : CtrlDb) :
    db.getPeerSet.len = db.peers.entries.length := by
  rw [PeerSet.len, getPeerSet, PeerSet.ofList, List.length_insertionSort,
    List.length_map]

theorem getPeerSet_len_ne_zero {db : CtrlDb} :
    db.getPeerSet.len ≠ 0 ↔ ∃ k, (db.peers.get? k).isSome = true := by
  rw [getPeerSet_len]
  constructor
  · intro h
    obtain ⟨e, he⟩ := List.exists_mem_of_length_pos (Nat.pos_of_ne_zero h)
    refine ⟨e.1, ?_⟩
    rw [SortedTable.mem_entries'.mp he]
    rfl
  · rintro ⟨k, hk⟩ hzero
    obtain ⟨v, hv⟩ := Option.isSome_iff_exists.mp hk
    have hmem := SortedTable.mem_entries.mpr hv
    rw [List.eq_nil_of_length_eq_zero hzero] at hmem
    cases hmem

/-- A peer that is not the only one leaves another behind. -/
theorem exists_other_peer {db : CtrlDb} {peer : PeerPubkey}
    (hin : db.getPeerSet.contains peer = true) (hlast : db.getPeerSet.len ≠ 1) :
    ∃ k, k ≠ peer ∧ (db.peers.get? k).isSome = true := by
  by_contra hnone
  push Not at hnone
  have hall : ∀ e ∈ db.peers.entries, e = (peer, ()) := by
    intro e he
    have hkey : e.1 = peer := by
      by_contra hne
      exact hnone e.1 hne (by rw [SortedTable.mem_entries'.mp he]; rfl)
    exact Prod.ext hkey rfl
  obtain ⟨v, hv⟩ := Option.isSome_iff_exists.mp (contains_getPeerSet.mp hin)
  have hmem := SortedTable.mem_entries.mpr hv
  have hsorted := db.peers.sorted
  rw [getPeerSet_len] at hlast
  generalize db.peers.entries = l at hall hmem hsorted hlast
  cases l with
  | nil => cases hmem
  | cons a l =>
      cases l with
      | nil => exact hlast rfl
      | cons b l =>
          have hlt := (List.pairwise_cons.mp hsorted).1 b List.mem_cons_self
          rw [hall a List.mem_cons_self,
            hall b (List.mem_cons_of_mem _ List.mem_cons_self)] at hlt
          exact absurd hlt (lt_irrefl _)

/-- The last peer stays. -/
theorem processCitem_len_ne_zero {inits : ModulesInits} {db db' : CtrlDb}
    {voter : PeerPubkey} {peerSet : PeerSet} {citem : Option ConsensusCtrlCitem}
    {effects : List CtrlEffect} (hne : db.getPeerSet.len ≠ 0)
    (h : db.processCitem inits voter peerSet citem = .ok (db', effects)) :
    db'.getPeerSet.len ≠ 0 := by
  obtain ⟨_, vote, _, hcase⟩ := processCitem_cases h
  rw [getPeerSet_len_ne_zero] at hne ⊢
  cases hcase with
  | addRecorded => exact hne
  | added peer _ _ _ hdb =>
      rw [hdb]
      exact ⟨peer, by rw [SortedTable.get?_insert_self]; rfl⟩
  | repeated => exact hne
  | removeRecorded => exact hne
  | removed peer db₁ hin hlast _ _ hpeers =>
      obtain ⟨k, hk, hget⟩ := exists_other_peer hin hlast
      refine ⟨k, ?_⟩
      rw [checkModuleVersionUpgrades_peers, hpeers, SortedTable.get?_remove,
        if_neg hk]
      exact hget
  | moduleRecorded _ _ _ _ _ hdb =>
      rw [hdb]
      exact hne
  | moduleAdded => exact hne
  | versionRecorded _ _ _ _ hdb =>
      rw [checkModuleVersionUpgrades_peers, hdb]
      exact hne

end CtrlDb

namespace NodeApp

variable {M X E : Type} [OtherModules M X E] {inits : ModulesInits}
  {modules : ModulesConfigs} {m m' : Modules M}
  {effects : List (ModuleCItemEffect E)}

theorem collectEffects_len_ne_zero {round : BlockRound} {k : PeerPubkey}
    {peerSet : PeerSet} {citem : CItem X} (hne : m.ctrl.getPeerSet.len ≠ 0)
    (h : collectEffects inits modules m round k peerSet citem =
      .ok (m', effects)) : m'.ctrl.getPeerSet.len ≠ 0 := by
  cases citem with
  | peerCItem citem =>
      unfold collectEffects processModuleCitem at h
      simp only [Outcome.bind_eq_ok] at h
      obtain ⟨_, _, config, _, h⟩ := h
      split at h
      · simp only [Outcome.bind_eq_ok, Outcome.mapErr_eq_ok, Outcome.pure_eq_ok]
          at h
        obtain ⟨⟨ctrl, told⟩, hctrl, h⟩ := h
        cases h
        exact CtrlDb.processCitem_len_ne_zero hne hctrl
      · simp only [Outcome.bind_eq_ok, Outcome.mapErr_eq_ok, Outcome.pure_eq_ok]
          at h
        obtain ⟨⟨rest, told⟩, _, h⟩ := h
        cases h
        exact hne
  | transaction inputs outputs =>
      have htold := (collectEffects_told h).peers
      unfold collectEffects at h
      simp only [Outcome.bind_eq_ok, Outcome.pure_eq_ok] at h
      obtain ⟨⟨m₁, first⟩, h₁, ⟨m₂, more⟩, h₂, h⟩ := h
      cases h
      rw [peerSetAfter_eq, paramsChanges_append, paramsChanges_parts h₁,
        paramsChanges_parts h₂] at htold
      rw [← htold]
      exact hne

/-- No item leaves `consensus-ctrl` without peers, or changes to a set without. -/
theorem processModules_len_ne_zero {round : BlockRound} {k : PeerPubkey}
    {citem : CItem X} (hne : m.ctrl.getPeerSet.len ≠ 0)
    (h : processModules inits modules m round k m.ctrl.getPeerSet citem =
      .ok (m', effects)) :
    m'.ctrl.getPeerSet.len ≠ 0 ∧ ∀ s ∈ paramsChanges effects, s.len ≠ 0 := by
  have htold := (processModules_told h).peers
  have hsingle := paramsChanges_item h
  simp only [processModules, Outcome.bind_eq_ok, Outcome.pure_eq_ok] at h
  obtain ⟨⟨m₁, told⟩, h₁, m₂, h₂, h⟩ := h
  cases h
  have hleft : m'.ctrl.getPeerSet.len ≠ 0 := by
    rw [processEffects_ctrl h₂]
    exact collectEffects_len_ne_zero hne h₁
  refine ⟨hleft, fun s hs => ?_⟩
  rw [peerSetAfter_eq] at htold
  obtain ⟨s', hsets⟩ : ∃ s', paramsChanges told = [s'] :=
    List.length_eq_one_iff.mp
      (le_antisymm hsingle (List.length_pos_of_mem hs))
  rw [hsets] at htold hs
  rw [List.mem_singleton.mp hs]
  rw [← htold] at hleft
  exact hleft

end NodeApp

end Bfte
