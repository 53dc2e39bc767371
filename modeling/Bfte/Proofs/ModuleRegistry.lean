import Mathlib.Order.Bounds.Basic
import Bfte.Proofs.Membership

/-!
# The modules that run

A module comes in when all members have a vote standing for its kind in one major
version, in the lowest of their minor versions, and no module ever goes. The votes
for a kind are spent when a module of that kind is added; all others stand.

What a citem does to the modules is `RegistryStep`, and `Registry` is what holds of
the table in every run: of a kind that may be there once only there is at most one.
-/

namespace Bfte

namespace CtrlDb

/-! ## An id nobody has -/

theorem countP_from_succ_lt {configs : ModulesConfigs} {id : ModuleId}
    (h : (configs.get? id).isSome = true) :
    configs.entries.countP (fun e => decide (id < e.1)) <
      configs.entries.countP (fun e => decide (id ≤ e.1)) := by
  obtain ⟨config, hconfig⟩ := Option.isSome_iff_exists.mp h
  have hmem := SortedTable.mem_entries.mpr hconfig
  generalize configs.entries = l at hmem
  induction l with
  | nil => cases hmem
  | cons e l ih =>
      have hle : l.countP (fun e => decide (id < e.1)) ≤
          l.countP (fun e => decide (id ≤ e.1)) := by
        refine List.countP_mono_left fun e _ he => ?_
        exact decide_eq_true (of_decide_eq_true he).le
      rw [List.countP_cons, List.countP_cons]
      rcases List.mem_cons.mp hmem with rfl | hmem
      · simp only [lt_irrefl, le_refl, decide_false, decide_true, if_true,
          Bool.false_eq_true, if_false]
        omega
      · have hlt := ih hmem
        by_cases he : id < e.1
        · rw [if_pos (decide_eq_true he), if_pos (decide_eq_true he.le)]
          omega
        · rw [if_neg (by simpa using he)]
          omega

/-- Each id that the loop passes is one configured module less ahead of it. -/
theorem get?_freeModuleId_of_le {configs : ModulesConfigs} {left : ℕ} {id : ModuleId}
    (h : configs.entries.countP (fun e => decide (id ≤ e.1)) ≤ left) :
    configs.get? (freeModuleId configs left id) = none := by
  induction left generalizing id with
  | zero =>
      show configs.get? id = none
      by_contra hsome
      have hlt := countP_from_succ_lt (Option.isSome_iff_ne_none.mpr hsome)
      omega
  | succ left ih =>
      unfold freeModuleId
      split
      · next hnone => exact Option.isNone_iff_eq_none.mp hnone
      · next hsome =>
          have hfound : (configs.get? id).isSome = true := by
            simpa [Option.isNone_iff_eq_none, Option.isSome_iff_ne_none] using hsome
          have hlt := countP_from_succ_lt hfound
          refine ih (Nat.le_of_lt_succ (lt_of_lt_of_le ?_ h))
          exact hlt

/-- The loop finds an id before it runs out of modules. -/
theorem get?_freeModuleId (configs : ModulesConfigs) (id : ModuleId) :
    configs.get? (freeModuleId configs configs.entries.length id) = none :=
  get?_freeModuleId_of_le List.countP_le_length

/-! ## What all members want -/

theorem mem_matchingVotes {db : CtrlDb} {peerSet : PeerSet} {kind : ModuleKind}
    {major : ℕ} {version : ConsensusVersion} :
    version ∈ db.matchingVotes peerSet kind major ↔
      ∃ k ∈ peerSet.items, db.addModuleVotes.get? k = some (kind, version) ∧
        version.major = major := by
  unfold matchingVotes
  rw [List.mem_filterMap]
  refine exists_congr fun k => and_congr_right fun _ => ?_
  cases db.addModuleVotes.get? k with
  | none => simp
  | some e =>
      obtain ⟨kind', version'⟩ := e
      by_cases heq : kind' = kind ∧ version'.major = major
      · obtain ⟨rfl, rfl⟩ := heq
        simp only [Option.bind_some, and_self, if_true, Option.some.injEq,
          Prod.mk.injEq, true_and]
        exact ⟨fun h => ⟨h, congrArg ConsensusVersion.major h.symm⟩, fun h => h.1⟩
      · simp only [Option.bind_some, if_neg heq, reduceCtorEq, false_iff]
        rintro ⟨hv, hmajor⟩
        cases hv
        exact heq ⟨rfl, hmajor⟩

/-- All members have a vote standing for the kind in the major version, and `minor`
is the lowest of the minor versions they want. -/
structure AllWant (db : CtrlDb)
    (votes : SortedTable PeerPubkey (ModuleKind × ConsensusVersion))
    (kind : ModuleKind) (major minor : ℕ) : Prop where
  all : ∀ k ∈ db.members, ∃ minor, votes.get? k = some (kind, ⟨major, minor⟩)
  lowest : IsLeast {minor | ∃ k ∈ db.members, votes.get? k = some (kind, ⟨major, minor⟩)}
    minor

theorem allWant_of_matchingVotes {db db₁ : CtrlDb} {kind : ModuleKind} {major minor : ℕ}
    (hall : (db₁.matchingVotes db.getPeerSet kind major).length = db.getPeerSet.len)
    (hminor : ((db₁.matchingVotes db.getPeerSet kind major).map
      ConsensusVersion.minor).min? = some minor) :
    AllWant db db₁.addModuleVotes kind major minor := by
  have hmem : ∀ k, k ∈ db.members ↔ k ∈ db.getPeerSet.items := fun k =>
    List.mem_toFinset
  obtain ⟨hin, hle⟩ := List.min?_eq_some_iff.mp hminor
  refine ⟨fun k hk => ?_, ?_, fun minor' hminor' => ?_⟩
  · obtain ⟨v, hv, rfl⟩ := matchingVotes_length_eq.mp hall k ((hmem k).mp hk)
    exact ⟨v.minor, hv⟩
  · obtain ⟨v, hv, rfl⟩ := List.mem_map.mp hin
    obtain ⟨k, hk, hget, rfl⟩ := mem_matchingVotes.mp hv
    exact ⟨k, (hmem k).mpr hk, hget⟩
  · obtain ⟨k, hk, hget⟩ := hminor'
    refine hle minor' (List.mem_map.mpr ⟨⟨major, minor'⟩, ?_, rfl⟩)
    exact mem_matchingVotes.mpr ⟨k, (hmem k).mp hk, hget, rfl⟩

/-! ## One step -/

/-- What a citem does to the modules: nothing to their kinds, or it adds the one
that all members want, its own vote counted. -/
inductive RegistryStep (inits : ModulesInits) (db : CtrlDb) (op : CtrlOp)
    (effects : List CtrlEffect) (db' : CtrlDb) : Prop
  | same
      (hkinds : ∀ id, (db'.modulesConfigs.get? id).map ModuleConfig.kind =
        (db.modulesConfigs.get? id).map ModuleConfig.kind)
      (htold : ∀ kind id version, .addModule kind id version ∉ effects)
  | added (kind : ModuleKind) (version : ConsensusVersion) (minor : ℕ) (id : ModuleId)
      (hop : op.citem = some (.voteAddModule kind version))
      (hwant : AllWant db (db.addModuleVotes.insert op.voter (kind, version)) kind
        version.major minor)
      (hfresh : db.modulesConfigs.get? id = none)
      (hsingle : inits.get? kind = some true → ∀ id config,
        db.modulesConfigs.get? id = some config → config.kind ≠ kind)
      (hconfigs : db'.modulesConfigs =
        db.modulesConfigs.insert id ⟨kind, ⟨version.major, minor⟩⟩)
      (hvotes : ∀ k vote, db'.addModuleVotes.get? k = some vote ↔
        (db.addModuleVotes.insert op.voter (kind, version)).get? k = some vote ∧
          vote.1 ≠ kind)
      (htold : effects = [.addModule kind id ⟨version.major, minor⟩])

theorem upgrades_not_addModule (db : CtrlDb) (peerSet : PeerSet) (kind : ModuleKind)
    (id : ModuleId) (version : ConsensusVersion) :
    .addModule kind id version ∉ (db.checkModuleVersionUpgrades peerSet).2 := by
  intro h
  obtain ⟨_, _, heq⟩ := List.mem_map.mp h
  cases heq

theorem step_registry (inits : ModulesInits) (db : CtrlDb) (op : CtrlOp) :
    RegistryStep inits db op (effectsOf inits db op) (db.step inits op) := by
  unfold step effectsOf
  cases hok : db.processCitem inits op.voter db.getPeerSet op.citem with
  | error e => exact .same (fun _ => rfl) fun _ _ _ => List.not_mem_nil
  | ok res =>
      obtain ⟨db', effects⟩ := res
      obtain ⟨_, vote, hvote, hcase⟩ := processCitem_cases hok
      dsimp only
      cases hcase with
      | addRecorded => exact .same (fun _ => rfl) fun _ _ _ => List.not_mem_nil
      | added _ _ _ _ hdb =>
          refine .same (fun _ => by rw [hdb]) fun _ _ _ => ?_
          simp
      | repeated => exact .same (fun _ => rfl) fun _ _ _ => List.not_mem_nil
      | removeRecorded => exact .same (fun _ => rfl) fun _ _ _ => List.not_mem_nil
      | removed _ db₁ _ _ _ _ _ hdb =>
          have hconfigs : db₁.modulesConfigs = db.modulesConfigs :=
            (congrArg CtrlDb.modulesConfigs hdb :)
          refine .same (fun id => ?_) fun kind id version => ?_
          · rw [checkModuleVersionUpgrades_kind, hconfigs]
          · simpa using upgrades_not_addModule db₁ _ kind id version
      | moduleRecorded _ _ _ _ _ hdb =>
          exact .same (fun _ => by rw [hdb]) fun _ _ _ => List.not_mem_nil
      | moduleAdded kind version minor _ hfree id hid db₁ hdb hall hminor =>
          have hvotes : db₁.addModuleVotes =
              db.addModuleVotes.insert op.voter (kind, version) := by rw [hdb]
          refine .added kind version minor id hvote ?_ ?_ ?_ rfl ?_ rfl
          · rw [← hvotes]
            exact allWant_of_matchingVotes hall hminor
          · rw [hid]
            exact get?_freeModuleId _ _
          · intro hsingle id' config hget hkind
            refine hfree ⟨hsingle, any_kind_iff.mpr ⟨id', ?_⟩⟩
            rw [hget, ← hkind]
            rfl
          · intro k vote
            rw [SortedTable.get?_retain_eq_some]
            exact and_congr_right fun _ => decide_eq_true_iff
      | versionRecorded _ _ _ db₁ hdb =>
          have hconfigs : db₁.modulesConfigs = db.modulesConfigs :=
            (congrArg CtrlDb.modulesConfigs hdb :)
          refine .same (fun id => ?_) fun kind id version => ?_
          · rw [checkModuleVersionUpgrades_kind, hconfigs]
          · exact upgrades_not_addModule db₁ _ kind id version

/-- A module keeps its kind. -/
theorem RegistryStep.kind {inits : ModulesInits} {db db' : CtrlDb} {op : CtrlOp}
    {effects : List CtrlEffect} (h : RegistryStep inits db op effects db')
    {id : ModuleId} {kind : ModuleKind}
    (hkind : (db.modulesConfigs.get? id).map ModuleConfig.kind = some kind) :
    (db'.modulesConfigs.get? id).map ModuleConfig.kind = some kind := by
  cases h with
  | same hkinds => rw [hkinds, hkind]
  | added kind' version minor id' hop hwant hfresh hsingle hconfigs =>
      have hne : id ≠ id' := by
        intro heq
        rw [heq, hfresh] at hkind
        cases hkind
      rw [hconfigs, SortedTable.get?_insert_of_ne hne]
      exact hkind

/-! ## Runs -/

/-- Of a kind that may be there once only there is one module at most. -/
def Registry (inits : ModulesInits) (db : CtrlDb) : Prop :=
  ∀ kind, inits.get? kind = some true → ∀ id id',
    (db.modulesConfigs.get? id).map ModuleConfig.kind = some kind →
    (db.modulesConfigs.get? id').map ModuleConfig.kind = some kind → id = id'

theorem RegistryStep.registry {inits : ModulesInits} {db db' : CtrlDb} {op : CtrlOp}
    {effects : List CtrlEffect} (h : RegistryStep inits db op effects db')
    (hreg : Registry inits db) : Registry inits db' := by
  intro kind honce id id' hid hid'
  cases h with
  | same hkinds =>
      rw [hkinds] at hid hid'
      exact hreg kind honce id id' hid hid'
  | added kind' version minor newId hop hwant hfresh hsingle hconfigs =>
      -- the new module is the first of its kind, if there may be one only
      have hnew : ∀ {i}, (db.modulesConfigs.get? i).map ModuleConfig.kind =
          some kind → kind ≠ kind' := by
        intro i hi hkind
        obtain ⟨config, hget, hconfig⟩ := Option.map_eq_some_iff.mp hi
        rw [hkind] at honce hconfig
        exact hsingle honce i config hget hconfig
      rw [hconfigs, SortedTable.get?_insert] at hid hid'
      split at hid
      · next heq =>
          split at hid'
          · next heq' => rw [heq, heq']
          · exact absurd (Option.some.inj hid).symm (hnew hid')
      · split at hid'
        · exact absurd (Option.some.inj hid').symm (hnew hid)
        · exact hreg kind honce id id' hid hid'

variable {inits : ModulesInits} {id : ModuleId} {version : ConsensusVersion}
  {peerSet : PeerSet}

theorem run_registry (ops : List CtrlOp) :
    Registry inits (run inits (empty.bootstrapConsensus id version peerSet) ops) := by
  refine Trail.run_invariant (fun db op h => (step_registry inits db op).registry h) ?_
    ops
  have honly : ∀ {i kind}, ((empty.bootstrapConsensus id version
      peerSet).modulesConfigs.get? i).map ModuleConfig.kind = some kind → i = id := by
    intro i kind hi
    obtain ⟨config, hget, _⟩ := Option.map_eq_some_iff.mp hi
    rcases SortedTable.get?_insert_eq_some hget with ⟨rfl, _⟩ | hget
    · rfl
    · cases hget
  intro kind _ i i' hi hi'
  rw [honly hi, honly hi']

theorem run_kind {db : CtrlDb} (ops : List CtrlOp) {i : ModuleId} {kind : ModuleKind}
    (h : (db.modulesConfigs.get? i).map ModuleConfig.kind = some kind) :
    ((run inits db ops).modulesConfigs.get? i).map ModuleConfig.kind = some kind :=
  Trail.run_invariant
    (I := fun db => (db.modulesConfigs.get? i).map ModuleConfig.kind = some kind)
    (fun db op hdb => (step_registry inits db op).kind hdb) h ops

/-- In every state of a run there is at most one module of a kind that may be there
once only, every module stays there with its kind, and whatever comes next adds a
module only as all members want, under an id nobody has, and spends the votes for its
kind and no others. -/
theorem registry_sound (inits : ModulesInits) (id : ModuleId)
    (version : ConsensusVersion) (peerSet : PeerSet) (ops : List CtrlOp) :
    let db := run inits (empty.bootstrapConsensus id version peerSet) ops
    Registry inits db ∧
      (∀ more i config, db.modulesConfigs.get? i = some config →
        ∃ config', (run inits db more).modulesConfigs.get? i = some config' ∧
          config'.kind = config.kind) ∧
      ∀ op, RegistryStep inits db op (effectsOf inits db op) (db.step inits op) := by
  intro db
  refine ⟨run_registry ops, fun more i config hget => ?_,
    fun op => step_registry inits db op⟩
  have hkind : (db.modulesConfigs.get? i).map ModuleConfig.kind = some config.kind := by
    rw [hget]
    rfl
  exact Option.map_eq_some_iff.mp (run_kind more hkind)

/-- Two peers want a module, one of them in an earlier minor version. -/
example : effectsOf (.ofList [(1, true)])
    (run (.ofList [(1, true)]) (empty.bootstrapConsensus 0 ⟨0, 0⟩ ⟨[10, 11]⟩)
      [⟨10, some (.voteAddModule 1 ⟨0, 3⟩)⟩]) ⟨11, some (.voteAddModule 1 ⟨0, 2⟩)⟩ =
    [.addModule 1 1 ⟨0, 2⟩] := by decide +kernel

end CtrlDb

end Bfte
