import Bfte.Proofs.ModuleRegistry

/-!
# The versions the modules run in

A module runs in the minor version that its slowest member has voted for, or in a
later one if it got there before: versions do not go back. The votes are looked at
when one for a version comes in and when a peer is removed. A peer that comes in can
only make the slowest slower, and a module that is added has no votes yet, because
votes are taken for configured modules only; so the other citems need not look.

`UpToDate` says that no look is due. It holds in every run, and `VersionsStep` is what
a citem does to the versions in such a state.
-/

namespace Bfte

/-- The module an effect tells the upgrade of. -/
def CtrlEffect.upgradedModule : CtrlEffect → Option ModuleId
  | .moduleVersionUpgrade id _ _ => some id
  | _ => none

namespace CtrlDb

/-! ## The slowest member -/

/-- The minor version a peer has voted for; no vote is one for 0. -/
def minorVote (db : CtrlDb) (k : PeerPubkey) (id : ModuleId) : ℕ :=
  ((db.modulesVersionsVotes.get? (toLex (k, id))).map ConsensusVersion.minor).getD 0

/-- The minor version the slowest member has voted for. -/
def Slowest (db : CtrlDb) (id : ModuleId) (minor : ℕ) : Prop :=
  IsLeast {minor | ∃ k ∈ db.members, db.minorVote k id = minor} minor

theorem slowest_iff {db : CtrlDb} {id : ModuleId} {minor : ℕ} :
    db.Slowest id minor ↔ db.agreedMinor db.getPeerSet id = some minor := by
  have hmem : ∀ minor, minor ∈ db.getPeerSet.items.map (fun k => db.minorVote k id) ↔
      ∃ k ∈ db.members, db.minorVote k id = minor := by
    intro minor
    simp [members]
  refine Iff.trans ?_ List.min?_eq_some_iff.symm
  refine and_congr (hmem minor).symm ⟨fun h b hb => ?_, fun h b hb => ?_⟩
  · exact h ((hmem b).mp hb)
  · exact h b ((hmem b).mpr hb)

theorem exists_slowest {db : CtrlDb} (h : db.members.Nonempty) (id : ModuleId) :
    ∃ minor, db.Slowest id minor := by
  cases hmin : db.agreedMinor db.getPeerSet id with
  | some minor => exact ⟨minor, slowest_iff.mpr hmin⟩
  | none =>
      have hnil := List.map_eq_nil_iff.mp (List.min?_eq_none_iff.mp hmin)
      obtain ⟨k, hk⟩ := h
      unfold members at hk
      rw [hnil] at hk
      cases hk

/-- With more members, or lower votes, the slowest is no faster. -/
theorem Slowest.le {db db' : CtrlDb} {id : ModuleId} {minor minor' : ℕ}
    (h : db.Slowest id minor) (h' : db'.Slowest id minor')
    (hmembers : db.members ⊆ db'.members)
    (hvotes : db'.modulesVersionsVotes = db.modulesVersionsVotes) : minor' ≤ minor := by
  obtain ⟨k, hk, hvote⟩ := h.1
  refine h'.2 ⟨k, hmembers hk, ?_⟩
  rw [← hvote]
  unfold minorVote
  rw [hvotes]

/-! ## One step -/

/-- Votes are for configured modules, and none runs behind its slowest member. -/
structure UpToDate (db : CtrlDb) : Prop where
  configured : ∀ k id, (db.modulesVersionsVotes.get? (toLex (k, id))).isSome = true →
    (db.modulesConfigs.get? id).isSome = true
  notBehind : ∀ id config minor, db.modulesConfigs.get? id = some config →
    db.Slowest id minor → minor ≤ config.version.minor

/-- What a citem does to the versions of the modules. -/
structure VersionsStep (db : CtrlDb) (op : CtrlOp) (effects : List CtrlEffect)
    (db' : CtrlDb) : Prop where
  kept : ∀ id config, db.modulesConfigs.get? id = some config →
    ∃ slowest, db'.Slowest id slowest ∧ db'.modulesConfigs.get? id =
      some ⟨config.kind, ⟨config.version.major, max config.version.minor slowest⟩⟩
  added : ∀ id config, db.modulesConfigs.get? id = none →
    db'.modulesConfigs.get? id = some config →
    ∃ kind version agreed slowest, op.citem = some (.voteAddModule kind version) ∧
      AllWant db (db.addModuleVotes.insert op.voter (kind, version)) kind
        version.major agreed ∧
      db'.Slowest id slowest ∧
      config = ⟨kind, ⟨version.major, max agreed slowest⟩⟩
  told : ∀ id old new, .moduleVersionUpgrade id old new ∈ effects ↔
    ∃ config config', db.modulesConfigs.get? id = some config ∧
      db'.modulesConfigs.get? id = some config' ∧ old = config.version ∧
      new = config'.version ∧ new ≠ old
  once : (effects.filterMap CtrlEffect.upgradedModule).Nodup

section Steps

variable {db db' db₁ : CtrlDb} {op : CtrlOp} {effects : List CtrlEffect}

/-- A module that is not touched stays where it is, if the slowest gets no faster. -/
theorem UpToDate.kept (h : UpToDate db) (hne : db.members.Nonempty)
    (hvotes : db'.modulesVersionsVotes = db.modulesVersionsVotes)
    (hmembers : db.members ⊆ db'.members) {id : ModuleId} {config : ModuleConfig}
    (hget : db.modulesConfigs.get? id = some config)
    (hget' : db'.modulesConfigs.get? id = some config) :
    ∃ slowest, db'.Slowest id slowest ∧ db'.modulesConfigs.get? id =
      some ⟨config.kind, ⟨config.version.major, max config.version.minor slowest⟩⟩ := by
  obtain ⟨minor, hminor⟩ := exists_slowest hne id
  obtain ⟨slowest, hslowest⟩ := exists_slowest (hne.mono hmembers) id
  have hle : slowest ≤ config.version.minor :=
    (hminor.le hslowest hmembers hvotes).trans (h.notBehind id config minor hget hminor)
  refine ⟨slowest, hslowest, ?_⟩
  rw [hget', max_eq_left hle]

theorem filterMap_upgradedModule_eq_nil
    (h : ∀ e ∈ effects, e.upgradedModule = none) :
    effects.filterMap CtrlEffect.upgradedModule = [] :=
  List.filterMap_eq_nil_iff.mpr h

theorem not_mem_of_upgradedModule (h : ∀ e ∈ effects, e.upgradedModule = none)
    (id : ModuleId) (old new : ConsensusVersion) :
    .moduleVersionUpgrade id old new ∉ effects := by
  intro hin
  have hnone := h _ hin
  cases hnone

/-- Citems that look at no votes, and touch no module that is there. -/
theorem UpToDate.unchecked (h : UpToDate db) (hne : db.members.Nonempty)
    (hvotes : db'.modulesVersionsVotes = db.modulesVersionsVotes)
    (hmembers : db.members ⊆ db'.members)
    (hconfigs : ∀ id config, db.modulesConfigs.get? id = some config →
      db'.modulesConfigs.get? id = some config)
    (hadded : ∀ id config, db.modulesConfigs.get? id = none →
      db'.modulesConfigs.get? id = some config → ∃ kind version agreed,
        op.citem = some (.voteAddModule kind version) ∧
        AllWant db (db.addModuleVotes.insert op.voter (kind, version)) kind
          version.major agreed ∧ config = ⟨kind, ⟨version.major, agreed⟩⟩)
    (hnone : ∀ e ∈ effects, e.upgradedModule = none) :
    VersionsStep db op effects db' where
  kept id config hget := h.kept hne hvotes hmembers hget (hconfigs id config hget)
  added id config hfresh hget := by
    obtain ⟨kind, version, agreed, hop, hwant, hconfig⟩ := hadded id config hfresh hget
    obtain ⟨slowest, hslowest⟩ := exists_slowest (hne.mono hmembers) id
    -- nobody can have voted on the version of a module that was not there
    have hzero : slowest = 0 := by
      obtain ⟨k, _, hvote⟩ := hslowest.1
      rw [← hvote]
      unfold minorVote
      cases hv : db'.modulesVersionsVotes.get? (toLex (k, id)) with
      | none => rfl
      | some v =>
          rw [hvotes] at hv
          have hsome := h.configured k id (by rw [hv]; rfl)
          rw [hfresh] at hsome
          cases hsome
    refine ⟨kind, version, agreed, slowest, hop, hwant, hslowest, ?_⟩
    rw [hconfig, hzero, Nat.max_zero]
  told id old new := by
    refine iff_of_false (not_mem_of_upgradedModule hnone id old new) ?_
    rintro ⟨config, config', hget, hget', rfl, rfl, hne⟩
    rw [hconfigs id config hget] at hget'
    exact hne (congrArg ModuleConfig.version (Option.some.inj hget').symm)
  once := by
    rw [filterMap_upgradedModule_eq_nil hnone]
    exact List.nodup_nil

/-- Citems that look at the votes, after what else they do. -/
theorem versionsStep_of_check (before : List CtrlEffect) (hne : db₁.members.Nonempty)
    (hconfigs : db₁.modulesConfigs = db.modulesConfigs)
    (hnone : ∀ e ∈ before, e.upgradedModule = none) :
    VersionsStep db op (before ++ (db₁.checkModuleVersionUpgrades db₁.getPeerSet).2)
      (db₁.checkModuleVersionUpgrades db₁.getPeerSet).1 := by
  have hget' : ∀ id, (db₁.checkModuleVersionUpgrades db₁.getPeerSet).1.modulesConfigs.get?
      id = (db.modulesConfigs.get? id).map
        (raisedTo ((db₁.agreedMinor db₁.getPeerSet id).getD 0)) := by
    intro id
    rw [checkModuleVersionUpgrades_get?, hconfigs]
  refine ⟨fun id config hget => ?_, fun id config hfresh hget => ?_,
    fun id old new => ?_, ?_⟩
  · obtain ⟨slowest, hslowest⟩ := exists_slowest hne id
    refine ⟨slowest, hslowest, ?_⟩
    rw [hget', hget, slowest_iff.mp hslowest]
    rfl
  · rw [hget', hfresh] at hget
    cases hget
  · rw [List.mem_append, or_iff_right (not_mem_of_upgradedModule hnone id old new)]
    constructor
    · intro hin
      obtain ⟨⟨_, config, _⟩, hu, heq⟩ := List.mem_map.mp hin
      cases heq
      obtain ⟨hget, agreed, hagreed, hlt, rfl⟩ := mem_upgrades.mp hu
      rw [hconfigs] at hget
      refine ⟨config, raisedTo agreed config, hget, ?_, rfl, rfl, fun heq => ?_⟩
      · rw [hget', hget, hagreed]
        rfl
      · have hminor := congrArg ConsensusVersion.minor heq
        simp only [raisedTo] at hminor
        omega
    · rintro ⟨config, config', hget, hupgraded, rfl, rfl, hchanged⟩
      rw [hget', hget] at hupgraded
      obtain rfl := Option.some.inj hupgraded
      have hlt : config.version.minor <
          (db₁.agreedMinor db₁.getPeerSet id).getD 0 := by
        by_contra hle
        exact hchanged (congrArg ModuleConfig.version (raisedTo_of_le (not_lt.mp hle)))
      obtain ⟨slowest, hslowest⟩ := exists_slowest hne id
      rw [slowest_iff.mp hslowest] at hlt ⊢
      refine List.mem_map.mpr ⟨(id, config, _), mem_upgrades.mpr ⟨?_, slowest,
        slowest_iff.mp hslowest, hlt, rfl⟩, rfl⟩
      rw [hconfigs]
      exact hget
  · rw [List.filterMap_append, filterMap_upgradedModule_eq_nil hnone, List.nil_append]
    show (((db₁.upgrades db₁.getPeerSet).map _).filterMap _).Nodup
    rw [List.filterMap_map]
    have hkeys : (db₁.upgrades db₁.getPeerSet).filterMap
        (CtrlEffect.upgradedModule ∘ fun u =>
          .moduleVersionUpgrade u.1 u.2.1.version u.2.2) =
        (db₁.upgrades db₁.getPeerSet).map Prod.fst := by
      rw [← List.filterMap_eq_map]
      rfl
    refine (congrArg List.Nodup hkeys).mpr ?_
    exact List.pairwise_map.mpr ((pairwise_upgrades db₁ _).imp fun hlt => ne_of_lt hlt)

/-- What is not behind after a citem. -/
theorem VersionsStep.notBehind (h : VersionsStep db op effects db') {id : ModuleId}
    {config : ModuleConfig} {minor : ℕ}
    (hget : db'.modulesConfigs.get? id = some config) (hminor : db'.Slowest id minor) :
    minor ≤ config.version.minor := by
  cases hold : db.modulesConfigs.get? id with
  | some config₀ =>
      obtain ⟨slowest, hslowest, hget'⟩ := h.kept id config₀ hold
      rw [hget] at hget'
      rw [hminor.unique hslowest, Option.some.inj hget']
      exact le_max_right _ _
  | none =>
      obtain ⟨_, _, _, slowest, _, _, hslowest, hconfig⟩ := h.added id config hold hget
      rw [hminor.unique hslowest, hconfig]
      exact le_max_right _ _

/-- A citem that is not from a member does nothing. -/
theorem step_of_not_mem {inits : ModulesInits} (h : op.voter ∉ db.members) :
    db.step inits op = db := by
  have hnot : ¬ db.getPeerSet.contains op.voter = true := fun hin =>
    h (mem_members.mpr (contains_getPeerSet.mp hin))
  unfold step
  cases hok : db.processCitem inits op.voter db.getPeerSet op.citem with
  | error e => rfl
  | ok res => exact absurd (processCitem_cases hok).1 hnot

theorem step_versions (inits : ModulesInits) (h : UpToDate db)
    (hvoter : op.voter ∈ db.members) :
    VersionsStep db op (effectsOf inits db op) (db.step inits op) := by
  have hne : db.members.Nonempty := ⟨_, hvoter⟩
  have hold : ∀ {db' : CtrlDb}, db'.modulesConfigs = db.modulesConfigs →
      ∀ id config, db.modulesConfigs.get? id = none →
        db'.modulesConfigs.get? id = some config → ∃ kind version agreed,
          op.citem = some (.voteAddModule kind version) ∧
          AllWant db (db.addModuleVotes.insert op.voter (kind, version)) kind
            version.major agreed ∧ config = ⟨kind, ⟨version.major, agreed⟩⟩ := by
    intro db' heq id config hfresh hget
    rw [heq, hfresh] at hget
    cases hget
  have hsame : ∀ {db' : CtrlDb} {effects}, db'.peers = db.peers →
      db'.modulesVersionsVotes = db.modulesVersionsVotes →
      db'.modulesConfigs = db.modulesConfigs →
      (∀ e ∈ effects, e.upgradedModule = none) → VersionsStep db op effects db' := by
    intro db' effects hpeers hvotes hconfigs hnone
    refine h.unchecked hne hvotes (fun k hk => ?_) (fun id config hget => ?_)
      (hold hconfigs) hnone
    · rw [mem_members] at hk ⊢
      rw [hpeers]
      exact hk
    · rw [hconfigs]
      exact hget
  have hnil : ∀ e ∈ ([] : List CtrlEffect), e.upgradedModule = none := fun e he =>
    absurd he List.not_mem_nil
  have hregistry := step_registry inits db op
  unfold step effectsOf at *
  cases hok : db.processCitem inits op.voter db.getPeerSet op.citem with
  | error e => exact hsame rfl rfl rfl hnil
  | ok res =>
      obtain ⟨db', effects⟩ := res
      rw [hok] at hregistry
      dsimp only at hregistry ⊢
      obtain ⟨_, vote, hvote, hcase⟩ := processCitem_cases hok
      cases hcase with
      | addRecorded => exact hsame rfl rfl rfl hnil
      | added peer _ hnot _ hdb =>
          have hconfigs : db'.modulesConfigs = db.modulesConfigs :=
            (congrArg CtrlDb.modulesConfigs hdb :)
          refine h.unchecked hne (congrArg CtrlDb.modulesVersionsVotes hdb :)
            (fun k hk => ?_) (fun id config hget => ?_) (hold hconfigs)
            (by simp [CtrlEffect.upgradedModule])
          · rw [members_insert (congrArg CtrlDb.peers hdb)]
            exact Finset.mem_insert_of_mem hk
          · rw [hconfigs]
            exact hget
      | repeated => exact hsame rfl rfl rfl hnil
      | removeRecorded => exact hsame rfl rfl rfl hnil
      | removed peer db₁ hin hlast _ _ hpeers hdb =>
          obtain ⟨k, hk, hget⟩ := exists_other_peer hin hlast
          have hleft : db₁.members.Nonempty := by
            refine ⟨k, mem_members.mpr ?_⟩
            rw [hpeers, SortedTable.get?_remove, if_neg hk]
            exact hget
          exact versionsStep_of_check
            [.removePeer peer, .consensusParamsChange db₁.getPeerSet] hleft
            (congrArg CtrlDb.modulesConfigs hdb :) (by simp [CtrlEffect.upgradedModule])
      | moduleRecorded _ _ _ _ _ hdb =>
          exact hsame (congrArg CtrlDb.peers hdb :)
            (congrArg CtrlDb.modulesVersionsVotes hdb :)
            (congrArg CtrlDb.modulesConfigs hdb :) hnil
      | moduleAdded kind version minor hinit hfree id hid db₁ hdb hall hminor =>
          cases hregistry with
          | same _ htold => exact absurd List.mem_cons_self (htold kind id _)
          | added kind' version' agreed id' hop hwant hfresh _ hconfigs =>
              refine h.unchecked hne rfl (fun k hk => hk) (fun i config hget => ?_)
                (fun i config hnone hget => ?_) (by simp [CtrlEffect.upgradedModule])
              · have hi : i ≠ id' := by
                  intro heq
                  rw [heq, hfresh] at hget
                  cases hget
                rw [hconfigs, SortedTable.get?_insert_of_ne hi]
                exact hget
              · rw [hconfigs, SortedTable.get?_insert] at hget
                split at hget
                · exact ⟨kind', version', agreed, hop, hwant, (Option.some.inj hget).symm⟩
                · rw [hnone] at hget
                  cases hget
      | versionRecorded id minor config db₁ hdb hconfig =>
          have hpeers : db₁.peers = db.peers := (congrArg CtrlDb.peers hdb :)
          have hset : db₁.getPeerSet = db.getPeerSet := by
            unfold getPeerSet
            rw [hpeers]
          rw [← hset]
          refine versionsStep_of_check [] ?_
            (congrArg CtrlDb.modulesConfigs hdb :) hnil
          unfold members
          rw [hset]
          exact hne

/-- Votes on versions are taken for configured modules only. -/
theorem step_votes {inits : ModulesInits} {k : PeerPubkey} {id : ModuleId}
    (h : ((db.step inits op).modulesVersionsVotes.get? (toLex (k, id))).isSome = true) :
    (db.modulesVersionsVotes.get? (toLex (k, id))).isSome = true ∨
      (db.modulesConfigs.get? id).isSome = true := by
  unfold step at h
  cases hok : db.processCitem inits op.voter db.getPeerSet op.citem with
  | error e =>
      rw [hok] at h
      exact Or.inl h
  | ok res =>
      obtain ⟨db', effects⟩ := res
      rw [hok] at h
      dsimp only at h
      obtain ⟨_, vote, _, hcase⟩ := processCitem_cases hok
      have hkept : db'.modulesVersionsVotes = db.modulesVersionsVotes →
          (db.modulesVersionsVotes.get? (toLex (k, id))).isSome = true ∨
            (db.modulesConfigs.get? id).isSome = true := by
        intro hvotes
        rw [hvotes] at h
        exact Or.inl h
      cases hcase with
      | addRecorded | repeated | removeRecorded | moduleAdded => exact hkept rfl
      | added _ _ _ _ hdb => exact hkept (congrArg CtrlDb.modulesVersionsVotes hdb :)
      | removed _ _ _ _ _ _ _ hdb =>
          exact hkept (congrArg CtrlDb.modulesVersionsVotes hdb :)
      | moduleRecorded _ _ _ _ _ hdb =>
          exact hkept (congrArg CtrlDb.modulesVersionsVotes hdb :)
      | versionRecorded id' minor config db₁ hdb hconfig =>
          have hvotes : (db₁.checkModuleVersionUpgrades
              db.getPeerSet).1.modulesVersionsVotes = _ :=
            (congrArg CtrlDb.modulesVersionsVotes hdb :)
          rw [hvotes, SortedTable.get?_insert] at h
          split at h
          · next heq =>
              obtain ⟨_, rfl⟩ := Prod.mk.inj (toLex.injective heq)
              refine Or.inr ?_
              rw [hconfig]
              rfl
          · exact Or.inl h

theorem step_upToDate {inits : ModulesInits} (db : CtrlDb) (op : CtrlOp)
    (h : UpToDate db) : UpToDate (db.step inits op) := by
  by_cases hvoter : op.voter ∈ db.members
  · have hstep := step_versions inits h hvoter
    refine ⟨fun k id hvote => ?_, fun id config minor => hstep.notBehind⟩
    have hsome : (db.modulesConfigs.get? id).isSome = true := by
      rcases step_votes hvote with hold | hnew
      · exact h.configured k id hold
      · exact hnew
    obtain ⟨config, hget⟩ := Option.isSome_iff_exists.mp hsome
    obtain ⟨_, _, hget'⟩ := hstep.kept id config hget
    rw [hget']
    rfl
  · rw [step_of_not_mem hvoter]
    exact h

/-- A citem leaves each module its kind and its major version, and takes no minor
version back. -/
theorem step_version_kept (inits : ModulesInits) (op : CtrlOp) (h : UpToDate db)
    {id : ModuleId} {config : ModuleConfig} (hget : db.modulesConfigs.get? id = some config) :
    ∃ config', (db.step inits op).modulesConfigs.get? id = some config' ∧
      config'.version.major = config.version.major ∧
      config.version.minor ≤ config'.version.minor := by
  by_cases hvoter : op.voter ∈ db.members
  · obtain ⟨slowest, _, hget'⟩ := (step_versions inits h hvoter).kept id config hget
    exact ⟨_, hget', rfl, le_max_left _ _⟩
  · rw [step_of_not_mem hvoter]
    exact ⟨config, hget, rfl, le_rfl⟩

end Steps

/-! ## Runs -/

theorem bootstrap_upToDate (id : ModuleId) (version : ConsensusVersion)
    (peerSet : PeerSet) : UpToDate (empty.bootstrapConsensus id version peerSet) where
  configured k i h := by cases h
  notBehind i config minor _ hminor := by
    obtain ⟨k, _, hvote⟩ := hminor.1
    rw [← hvote]
    exact Nat.zero_le _

theorem run_upToDate {inits : ModulesInits} {db : CtrlDb} (h : UpToDate db)
    (ops : List CtrlOp) : UpToDate (run inits db ops) :=
  Trail.run_invariant step_upToDate h ops

theorem run_version_kept {inits : ModulesInits} {db : CtrlDb} (h : UpToDate db)
    (ops : List CtrlOp) {id : ModuleId} {config : ModuleConfig}
    (hget : db.modulesConfigs.get? id = some config) :
    ∃ config', (run inits db ops).modulesConfigs.get? id = some config' ∧
      config'.version.major = config.version.major ∧
      config.version.minor ≤ config'.version.minor := by
  induction ops generalizing db config with
  | nil => exact ⟨config, hget, rfl, le_rfl⟩
  | cons op ops ih =>
      obtain ⟨config₁, hget₁, hmajor₁, hminor₁⟩ := step_version_kept inits op h hget
      obtain ⟨config₂, hget₂, hmajor₂, hminor₂⟩ := ih (step_upToDate db op h) hget₁
      exact ⟨config₂, hget₂, hmajor₂.trans hmajor₁, hminor₁.trans hminor₂⟩

/-- In every state of a run a module has the major version it came in with and no
lower minor version than ever before, and what a member's citem does next brings every
module to the version of the slowest member, if that is a later one, and tells of
exactly the versions that change. -/
theorem versions_follow_slowest (inits : ModulesInits) (id : ModuleId)
    (version : ConsensusVersion) (peerSet : PeerSet) (ops : List CtrlOp) :
    let db := run inits (empty.bootstrapConsensus id version peerSet) ops
    (∀ more i config, db.modulesConfigs.get? i = some config →
      ∃ config', (run inits db more).modulesConfigs.get? i = some config' ∧
        config'.version.major = config.version.major ∧
        config.version.minor ≤ config'.version.minor) ∧
    ∀ op, op.voter ∈ db.members →
      VersionsStep db op (effectsOf inits db op) (db.step inits op) := by
  intro db
  have hdb : UpToDate db := run_upToDate (bootstrap_upToDate id version peerSet) ops
  exact ⟨fun more i config hget => run_version_kept hdb more hget,
    fun op hvoter => step_versions inits hdb hvoter⟩

/-- Peers 10 and 12 vote for later versions, peer 11 does not, and the others vote to
remove it. -/
def slowestLeaves : List CtrlOp :=
  [⟨10, some (.voteModuleVersion 0 3)⟩, ⟨12, some (.voteModuleVersion 0 2)⟩,
   ⟨10, some (.voteRemovePeer 11)⟩, ⟨12, some (.voteRemovePeer 11)⟩]

/-- With its own vote peer 11 is removed, and the module runs in the version of the
others. -/
theorem versions_follow_others :
    let db := run .empty (empty.bootstrapConsensus 0 ⟨0, 0⟩ ⟨[10, 11, 12]⟩) slowestLeaves
    let op := ⟨11, some (.voteRemovePeer 11)⟩
    effectsOf .empty db op = [.removePeer 11, .consensusParamsChange ⟨[10, 12]⟩,
        .moduleVersionUpgrade 0 ⟨0, 0⟩ ⟨0, 2⟩] ∧
      VersionsStep db op (effectsOf .empty db op) (db.step .empty op) := by
  refine ⟨by decide +kernel, ?_⟩
  exact (versions_follow_slowest .empty 0 ⟨0, 0⟩ ⟨[10, 11, 12]⟩ slowestLeaves).2
    ⟨11, some (.voteRemovePeer 11)⟩ (by decide +kernel)

end CtrlDb

end Bfte
