import Bfte.App.Run

/-!
# What one citem does

The tables of the modules change as `processModules` says, whatever the consensus
next to them does: scheduling new params can panic, but it reports no errors. And
the two copies the app keeps in memory stay true, because every citem that
changes the peers or the modules says so in its effects, and a failed citem
throws the copies away.
-/

namespace Bfte

namespace CtrlDb

/-- What a vote does. -/
inductive Voted (db : CtrlDb) : CtrlDb → List CtrlEffect → Prop
  /-- The vote is recorded and decides nothing. -/
  | recorded {db' : CtrlDb} (hp : db'.peers = db.peers)
      (hm : db'.modulesConfigs = db.modulesConfigs) : Voted db db' []
  | addPeer {db' : CtrlDb} {peer : PeerPubkey}
      (hm : db'.modulesConfigs = db.modulesConfigs) :
      Voted db db' [.addPeer peer, .consensusParamsChange db'.getPeerSet]
  /-- Without the peer removed, the others may agree on newer modules. -/
  | removePeer (db₁ : CtrlDb) {peer : PeerPubkey}
      (hm : db₁.modulesConfigs = db.modulesConfigs) :
      Voted db (db₁.checkModuleVersionUpgrades db₁.getPeerSet).1
        (.removePeer peer :: .consensusParamsChange db₁.getPeerSet ::
          (db₁.checkModuleVersionUpgrades db₁.getPeerSet).2)
  | addModule {db' : CtrlDb} {kind : ModuleKind} {id : ModuleId}
      {version : ConsensusVersion} (hp : db'.peers = db.peers) :
      Voted db db' [.addModule kind id version]
  | upgraded (db₁ : CtrlDb) (peerSet : PeerSet) (hp : db₁.peers = db.peers)
      (hm : db₁.modulesConfigs = db.modulesConfigs) :
      Voted db (db₁.checkModuleVersionUpgrades peerSet).1
        (db₁.checkModuleVersionUpgrades peerSet).2

theorem processCitem_voted {inits : ModulesInits} {db db' : CtrlDb}
    {k : PeerPubkey} {peerSet : PeerSet} {citem : Option ConsensusCtrlCitem}
    {effects : List CtrlEffect}
    (h : db.processCitem inits k peerSet citem = .ok (db', effects)) :
    Voted db db' effects := by
  unfold processCitem at h
  simp only [Outcome.bind_eq_ok] at h
  obtain ⟨_, _, h⟩ := h
  split at h
  · cases h
  · simp only [processCitemVoteAddPeer, Outcome.bind_eq_ok, toNumPeers_eq_ok] at h
    obtain ⟨_, _, _, _, h⟩ := h
    split at h <;> cases h
    · exact .addPeer rfl
    · exact .recorded rfl rfl
  · simp only [processCitemVoteRemovePeer, Outcome.bind_eq_ok] at h
    obtain ⟨_, _, _, _, h⟩ := h
    split at h
    · cases h
      exact .recorded rfl rfl
    · simp only [Outcome.bind_eq_ok, toNumPeers_eq_ok] at h
      obtain ⟨_, _, h⟩ := h
      split at h <;> cases h
      · exact .removePeer { db with
          peers := _
          addPeerVotes := _
          removePeerVotes := _ } rfl
      · exact .recorded rfl rfl
  · simp only [processCitemVoteAddModule, Outcome.bind_eq_ok] at h
    obtain ⟨_, _, _, _, h⟩ := h
    split at h
    · simp only [Outcome.bind_eq_ok, Outcome.pure_eq_ok] at h
      obtain ⟨minor, _, h⟩ := h
      cases h
      exact .addModule rfl
    · cases h
      exact .recorded rfl rfl
  · rename_i id minor
    simp only [processCitemVoteModuleVersion, Outcome.bind_eq_ok] at h
    obtain ⟨_, _, h⟩ := h
    split at h
    · cases h
    · rename_i config _
      cases h
      exact .upgraded { db with
        modulesVersionsVotes := db.modulesVersionsVotes.insert (toLex (k, id))
          ⟨config.version.major, minor⟩ } peerSet rfl rfl

end CtrlDb

namespace NodeApp

variable {M X E : Type}

@[simp] theorem peerSetAfter_nil (s : PeerSet) :
    peerSetAfter s ([] : List (ModuleCItemEffect E)) = s := rfl

@[simp] theorem peerSetAfter_change (s s' : PeerSet)
    (l : List (ModuleCItemEffect E)) :
    peerSetAfter s (.ctrl (.consensusParamsChange s') :: l) = peerSetAfter s' l :=
  rfl

@[simp] theorem peerSetAfter_addPeer (s : PeerSet) (k : PeerPubkey)
    (l : List (ModuleCItemEffect E)) :
    peerSetAfter s (.ctrl (.addPeer k) :: l) = peerSetAfter s l := rfl

@[simp] theorem peerSetAfter_removePeer (s : PeerSet) (k : PeerPubkey)
    (l : List (ModuleCItemEffect E)) :
    peerSetAfter s (.ctrl (.removePeer k) :: l) = peerSetAfter s l := rfl

/-- Effects that are no change of params leave the peer set alone. -/
theorem peerSetAfter_of_forall {s : PeerSet} {l : List (ModuleCItemEffect E)}
    (h : ∀ e ∈ l, ∀ s', e ≠ .ctrl (.consensusParamsChange s')) :
    peerSetAfter s l = s := by
  induction l with
  | nil => rfl
  | cons e l ih =>
      have hl := ih fun e he => h e (List.mem_cons_of_mem _ he)
      cases e with
      | other => exact hl
      | ctrl e =>
          cases e with
          | consensusParamsChange s' =>
              exact absurd rfl (h _ List.mem_cons_self s')
          | addPeer => exact hl
          | removePeer => exact hl
          | moduleVersionUpgrade => exact hl
          | addModule => exact hl

theorem peerSetAfter_append (s : PeerSet) (l l' : List (ModuleCItemEffect E)) :
    peerSetAfter s (l ++ l') = peerSetAfter (peerSetAfter s l) l' := by
  induction l generalizing s with
  | nil => rfl
  | cons e l ih =>
      cases e with
      | other => exact ih s
      | ctrl e => cases e <;> exact ih _

/-- The effects of a change of the tables of `consensus-ctrl` say what changed. -/
structure Told (db db' : CtrlDb) (effects : List (ModuleCItemEffect E)) : Prop where
  peers : peerSetAfter db.getPeerSet effects = db'.getPeerSet
  modules : effects.any changesModules = false →
    db'.modulesConfigs = db.modulesConfigs

theorem Told.refl {db : CtrlDb} {effects : List (ModuleCItemEffect E)}
    (h : ∀ e ∈ effects, ∀ s, e ≠ .ctrl (.consensusParamsChange s)) :
    Told db db effects := ⟨peerSetAfter_of_forall h, fun _ => rfl⟩

theorem Told.append {db db' db'' : CtrlDb} {l l' : List (ModuleCItemEffect E)}
    (h : Told db db' l) (h' : Told db' db'' l') : Told db db'' (l ++ l') where
  peers := by rw [peerSetAfter_append, h.peers, h'.peers]
  modules hany := by
    rw [List.any_append, Bool.or_eq_false_iff] at hany
    rw [h'.modules hany.2, h.modules hany.1]

/-- The effects of version upgrades. -/
theorem upgrades_told (db : CtrlDb) (peerSet : PeerSet) :
    Told db (db.checkModuleVersionUpgrades peerSet).1
      ((db.checkModuleVersionUpgrades peerSet).2.map
        (.ctrl : CtrlEffect → ModuleCItemEffect E)) where
  peers := by
    refine peerSetAfter_of_forall fun e he s => ?_
    obtain ⟨e', he', rfl⟩ := List.mem_map.mp he
    obtain ⟨u, _, rfl⟩ := List.mem_map.mp he'
    intro h
    cases h
  modules hany := by
    have hnone : db.upgrades peerSet = [] := by
      cases hu : db.upgrades peerSet with
      | nil => rfl
      | cons u us =>
          simp [CtrlDb.checkModuleVersionUpgrades, hu, changesModules] at hany
    simp [CtrlDb.checkModuleVersionUpgrades, hnone]

theorem told_of_voted {db db' : CtrlDb} {effects : List CtrlEffect}
    (h : CtrlDb.Voted db db' effects) :
    Told db db' (effects.map (.ctrl : CtrlEffect → ModuleCItemEffect E)) := by
  have hset : ∀ {db₁ : CtrlDb}, db₁.peers = db.peers →
      db.getPeerSet = db₁.getPeerSet := by
    intro db₁ hp
    unfold CtrlDb.getPeerSet
    rw [hp]
  cases h with
  | recorded hp hm => exact ⟨hset hp, fun _ => hm⟩
  | addPeer hm => exact ⟨rfl, fun _ => hm⟩
  | removePeer db₁ hm =>
      have htold := upgrades_told (E := E) db₁ db₁.getPeerSet
      exact ⟨htold.peers, fun hany => (htold.modules hany).trans hm⟩
  | addModule hp => exact ⟨hset hp, fun hany => by simp [changesModules] at hany⟩
  | upgraded db₁ peerSet hp hm =>
      have htold := upgrades_told (E := E) db₁ peerSet
      refine ⟨?_, fun hany => (htold.modules hany).trans hm⟩
      rw [hset hp]
      exact htold.peers

/-! ## The effects of an item -/

/-- Effects of the other modules tell of no change. -/
theorem told_other {db : CtrlDb} (l : List E) :
    Told db db (l.map (.other : E → ModuleCItemEffect E)) := by
  refine Told.refl fun e he s => ?_
  obtain ⟨e', _, rfl⟩ := List.mem_map.mp he
  intro h
  cases h

variable [OtherModules M X E] {inits : ModulesInits} {modules : ModulesConfigs}
  {m m' : Modules M} {effects : List (ModuleCItemEffect E)}

theorem processModuleCitem_told {round : BlockRound} {k : PeerPubkey}
    {peerSet : PeerSet} {citem : ModuleDyn X}
    (h : processModuleCitem inits modules m round k peerSet citem =
      .ok (m', effects)) : Told m.ctrl m'.ctrl effects := by
  unfold processModuleCitem at h
  simp only [Outcome.bind_eq_ok] at h
  obtain ⟨_, _, config, _, h⟩ := h
  split at h
  · simp only [Outcome.bind_eq_ok, Outcome.mapErr_eq_ok, Outcome.pure_eq_ok] at h
    obtain ⟨⟨ctrl, told⟩, hctrl, h⟩ := h
    cases h
    exact told_of_voted (CtrlDb.processCitem_voted hctrl)
  · simp only [Outcome.bind_eq_ok, Outcome.mapErr_eq_ok, Outcome.pure_eq_ok] at h
    obtain ⟨⟨rest, told⟩, _, h⟩ := h
    cases h
    exact told_other told

section Parts

variable {part : M → ModuleId → ModuleConfig → X → Outcome String (M × List E)}
  {text : String} {failed : String → ModuleId → ProcessCItemError}

omit [OtherModules M X E] in
theorem processPart_told {item : ModuleDyn X}
    (h : processPart modules part text failed m item = .ok (m', effects)) :
    Told m.ctrl m'.ctrl effects := by
  unfold processPart at h
  simp only [Outcome.bind_eq_ok] at h
  obtain ⟨config, _, h⟩ := h
  split at h
  · cases h
  · simp only [Outcome.bind_eq_ok, Outcome.mapErr_eq_ok, Outcome.pure_eq_ok] at h
    obtain ⟨⟨rest, told⟩, _, h⟩ := h
    cases h
    exact told_other told

omit [OtherModules M X E] in
theorem processParts_told {items : List (ModuleDyn X)}
    (h : processParts modules part text failed m items = .ok (m', effects)) :
    Told m.ctrl m'.ctrl effects := by
  induction items generalizing m effects with
  | nil =>
      cases h
      exact told_other []
  | cons item items ih =>
      unfold processParts at h
      simp only [Outcome.bind_eq_ok, Outcome.pure_eq_ok] at h
      obtain ⟨⟨m₁, first⟩, h₁, ⟨m₂, more⟩, h₂, h⟩ := h
      cases h
      exact (processPart_told h₁).append (ih h₂)

end Parts

theorem collectEffects_told {round : BlockRound} {k : PeerPubkey}
    {peerSet : PeerSet} {citem : CItem X}
    (h : collectEffects inits modules m round k peerSet citem =
      .ok (m', effects)) : Told m.ctrl m'.ctrl effects := by
  cases citem with
  | peerCItem citem => exact processModuleCitem_told h
  | transaction inputs outputs =>
      unfold collectEffects at h
      simp only [Outcome.bind_eq_ok, Outcome.pure_eq_ok] at h
      obtain ⟨⟨m₁, first⟩, h₁, ⟨m₂, more⟩, h₂, h⟩ := h
      cases h
      exact (processParts_told h₁).append (processParts_told h₂)

theorem processEffects_ctrl {peerSet : PeerSet}
    {l : List (ModuleId × ModuleConfig)}
    (h : processEffects (X := X) peerSet effects m l = .ok m') :
    m'.ctrl = m.ctrl := by
  induction l generalizing m with
  | nil =>
      cases h
      rfl
  | cons entry l ih =>
      obtain ⟨id, config⟩ := entry
      unfold processEffects at h
      split at h
      · exact ih h
      · simp only [Outcome.bind_eq_ok] at h
        obtain ⟨rest, _, h⟩ := h
        exact (ih h).trans rfl

theorem processModules_told {round : BlockRound} {k : PeerPubkey}
    {peerSet : PeerSet} {citem : CItem X}
    (h : processModules inits modules m round k peerSet citem =
      .ok (m', effects)) : Told m.ctrl m'.ctrl effects := by
  simp only [processModules, Outcome.bind_eq_ok, Outcome.pure_eq_ok] at h
  obtain ⟨⟨m₁, told⟩, h₁, m₂, h₂, h⟩ := h
  cases h
  rw [processEffects_ctrl h₂]
  exact collectEffects_told h₁

/-! ## Changes of the peer set -/

/-- The peer sets that some effects change to. -/
def paramsChanges : List (ModuleCItemEffect E) → List PeerSet
  | [] => []
  | .ctrl (.consensusParamsChange s) :: l => s :: paramsChanges l
  | _ :: l => paramsChanges l

omit [OtherModules M X E] in
theorem paramsChanges_append (l l' : List (ModuleCItemEffect E)) :
    paramsChanges (l ++ l') = paramsChanges l ++ paramsChanges l' := by
  induction l with
  | nil => rfl
  | cons e l ih =>
      cases e with
      | other => exact ih
      | ctrl e =>
          cases e with
          | consensusParamsChange s => exact congrArg (s :: ·) ih
          | addPeer => exact ih
          | removePeer => exact ih
          | moduleVersionUpgrade => exact ih
          | addModule => exact ih

omit [OtherModules M X E] in
theorem peerSetAfter_eq (s : PeerSet) (l : List (ModuleCItemEffect E)) :
    peerSetAfter s l = (paramsChanges l).getLastD s := by
  induction l generalizing s with
  | nil => rfl
  | cons e l ih =>
      cases e with
      | other => exact ih s
      | ctrl e =>
          cases e with
          | consensusParamsChange s' =>
              show peerSetAfter s' l = (s' :: paramsChanges l).getLastD s
              rw [List.getLastD_cons]
              exact ih s'
          | addPeer => exact ih s
          | removePeer => exact ih s
          | moduleVersionUpgrade => exact ih s
          | addModule => exact ih s

omit [OtherModules M X E] in
theorem paramsChanges_other (l : List E) :
    paramsChanges (l.map (.other : E → ModuleCItemEffect E)) = [] := by
  induction l with
  | nil => rfl
  | cons e l ih => exact ih

omit [OtherModules M X E] in
theorem paramsChanges_upgrades (db : CtrlDb) (peerSet : PeerSet) :
    paramsChanges ((db.checkModuleVersionUpgrades peerSet).2.map
      (.ctrl : CtrlEffect → ModuleCItemEffect E)) = [] := by
  unfold CtrlDb.checkModuleVersionUpgrades
  induction db.upgrades peerSet with
  | nil => rfl
  | cons u us ih => exact ih

omit [OtherModules M X E] in
/-- A vote changes the peer set at most once. -/
theorem paramsChanges_voted {db db' : CtrlDb} {l : List CtrlEffect}
    (h : CtrlDb.Voted db db' l) :
    (paramsChanges (l.map (.ctrl : CtrlEffect → ModuleCItemEffect E))).length ≤ 1 := by
  cases h with
  | recorded => exact Nat.zero_le _
  | addPeer => exact le_rfl
  | removePeer db₁ =>
      show (_ :: paramsChanges _).length ≤ 1
      rw [paramsChanges_upgrades]
      exact le_rfl
  | addModule => exact Nat.zero_le _
  | upgraded db₁ peerSet =>
      rw [paramsChanges_upgrades]
      exact Nat.zero_le _

omit [OtherModules M X E] in
theorem paramsChanges_parts
    {part : M → ModuleId → ModuleConfig → X → Outcome String (M × List E)}
    {text : String} {failed : String → ModuleId → ProcessCItemError}
    {items : List (ModuleDyn X)}
    (h : processParts modules part text failed m items = .ok (m', effects)) :
    paramsChanges effects = [] := by
  induction items generalizing m effects with
  | nil =>
      cases h
      rfl
  | cons item items ih =>
      unfold processParts processPart at h
      simp only [Outcome.bind_eq_ok, Outcome.pure_eq_ok] at h
      obtain ⟨⟨m₁, first⟩, ⟨config, _, h₁⟩, ⟨m₂, more⟩, h₂, h⟩ := h
      cases h
      rw [paramsChanges_append, ih h₂, List.append_nil]
      split at h₁
      · cases h₁
      · simp only [Outcome.bind_eq_ok, Outcome.mapErr_eq_ok, Outcome.pure_eq_ok]
          at h₁
        obtain ⟨⟨rest, told⟩, _, h₁⟩ := h₁
        cases h₁
        exact paramsChanges_other told

/-- An item changes the peer set at most once. -/
theorem paramsChanges_item {round : BlockRound} {k : PeerPubkey}
    {peerSet : PeerSet} {citem : CItem X}
    (h : processModules inits modules m round k peerSet citem =
      .ok (m', effects)) : (paramsChanges effects).length ≤ 1 := by
  simp only [processModules, Outcome.bind_eq_ok, Outcome.pure_eq_ok] at h
  obtain ⟨⟨m₁, told⟩, h₁, m₂, h₂, h⟩ := h
  cases h
  cases citem with
  | peerCItem citem =>
      unfold collectEffects processModuleCitem at h₁
      simp only [Outcome.bind_eq_ok] at h₁
      obtain ⟨_, _, config, _, h₁⟩ := h₁
      split at h₁
      · simp only [Outcome.bind_eq_ok, Outcome.mapErr_eq_ok, Outcome.pure_eq_ok]
          at h₁
        obtain ⟨⟨ctrl, told⟩, hctrl, h₁⟩ := h₁
        cases h₁
        exact paramsChanges_voted (CtrlDb.processCitem_voted hctrl)
      · simp only [Outcome.bind_eq_ok, Outcome.mapErr_eq_ok, Outcome.pure_eq_ok]
          at h₁
        obtain ⟨⟨rest, told⟩, _, h₁⟩ := h₁
        cases h₁
        rw [paramsChanges_other]
        exact Nat.zero_le _
  | transaction inputs outputs =>
      unfold collectEffects at h₁
      simp only [Outcome.bind_eq_ok, Outcome.pure_eq_ok] at h₁
      obtain ⟨⟨m₃, first⟩, h₃, ⟨m₄, more⟩, h₄, h₁⟩ := h₁
      cases h₁
      rw [paramsChanges_append, paramsChanges_parts h₃, paramsChanges_parts h₄]
      exact Nat.zero_le _

/-! ## The whole transaction -/

section Transaction

variable {D S : Type} [LinearOrder D] [Hashing D]

theorem consensusParamsChangeTx_not_failed {ε : Type} {c : Consensus D S}
    {round : BlockRound} {t : Timestamp} {s : PeerSet} :
    ¬ (c.consensusParamsChangeTx round t s : Outcome ε _).Failed := by
  have hparams : ¬ (c.db.getConsensusParams round : Outcome ε _).Failed := by
    unfold Db.getConsensusParams Db.getConsensusParamsOpt
    split <;> simp [Outcome.bind_failed]
  have hpeers : ∀ n : ℕ, ¬ (toNumPeers n : Outcome ε _).Failed := by
    intro n
    unfold toNumPeers
    split <;> simp
  simp [Consensus.consensusParamsChangeTx, Outcome.bind_failed, hparams,
    ConsensusParams.makeChange, ConsensusParams.schedulingDelay, hpeers,
    ConsensusParams.numPeers]

omit [OtherModules M X E] in
/-- The consensus schedules the changes of the peer set. -/
theorem corePre_eq {ε : Type} {round : BlockRound} {t : Timestamp}
    {c : Consensus D S} {l : List (ModuleCItemEffect E)} :
    (processConsensusChangeEffectsCorePre round t c l : Outcome ε _) =
      (paramsChanges l).foldlM
        (fun c s => c.consensusParamsChangeTx round t s) c := by
  induction l generalizing c with
  | nil => rfl
  | cons e l ih =>
      cases e with
      | other => exact ih
      | ctrl e =>
          cases e with
          | consensusParamsChange s =>
              show _ = (s :: paramsChanges l).foldlM _ c
              rw [List.foldlM_cons]
              unfold processConsensusChangeEffectsCorePre
              exact bind_congr fun c' => ih
          | addPeer => exact ih
          | removePeer => exact ih
          | moduleVersionUpgrade => exact ih
          | addModule => exact ih

/-- Scheduling new params may panic, but reports no error. -/
theorem corePre_not_failed {ε : Type} {round : BlockRound} {t : Timestamp}
    {c : Consensus D S} {l : List (ModuleCItemEffect E)} :
    ¬ (processConsensusChangeEffectsCorePre round t c l : Outcome ε _).Failed := by
  rw [corePre_eq]
  generalize paramsChanges l = sets
  induction sets generalizing c with
  | nil => exact Outcome.not_failed_ok
  | cons s sets ih =>
      rw [List.foldlM_cons, Outcome.bind_failed]
      rintro (h | ⟨c', _, h⟩)
      · exact consensusParamsChangeTx_not_failed h
      · exact ih h

variable {c : Consensus D S} {round blockRound : BlockRound} {t : Timestamp}
  {k : PeerPubkey} {peerSet : PeerSet} {configs : Option ModulesConfigs}
  {citem : CItem X}

/-- What a transaction that is committed did. -/
theorem processCitemTry_ok {r : Processed D S M}
    (h : processCitemTry (E := E) inits modules c m round blockRound t k peerSet
      configs citem = .ok r) :
    ∃ effects, processModules (E := E) inits modules m blockRound k peerSet citem =
        .ok (r.modules, effects) ∧
      processConsensusChangeEffectsCorePre round t c effects =
        (.ok r.consensus : Outcome ProcessCItemError _) ∧
      r.peerSet = peerSetAfter peerSet effects ∧
      r.modulesConfigs =
        processConsensusChangeEffectsCorePost configs effects := by
  simp only [processCitemTry, Outcome.bind_eq_ok, Outcome.pure_eq_ok] at h
  obtain ⟨⟨m₁, effects⟩, h₁, c', hc, m₂, h₂, h⟩ := h
  cases h
  refine ⟨effects, ?_, hc, rfl, rfl⟩
  simp only [processModules, Outcome.bind_eq_ok, Outcome.pure_eq_ok]
  exact ⟨_, h₁, _, h₂, rfl⟩

/-- And if the modules and the consensus go along, it is committed. -/
theorem processCitemTry_returns {effects : List (ModuleCItemEffect E)}
    {c' : Consensus D S}
    (h : processModules (E := E) inits modules m blockRound k peerSet citem =
      .ok (m', effects))
    (hc : processConsensusChangeEffectsCorePre round t c effects =
      (.ok c' : Outcome ProcessCItemError _)) :
    ∃ r, processCitemTry (E := E) inits modules c m round blockRound t k peerSet
      configs citem = .ok r := by
  simp only [processModules, Outcome.bind_eq_ok, Outcome.pure_eq_ok] at h
  obtain ⟨⟨m₁, told⟩, h₁, m₂, h₂, h⟩ := h
  cases h
  simp only [processCitemTry, Outcome.bind_eq_ok, Outcome.pure_eq_ok]
  exact ⟨_, _, h₁, c', hc, _, h₂, rfl⟩

/-- An item that fails does so because of its modules. -/
theorem processCitemTry_failed
    (h : (processCitemTry (E := E) inits modules c m round blockRound t k peerSet
      configs citem).Failed) :
    (processModules (E := E) inits modules m blockRound k peerSet citem).Failed := by
  simp only [processCitemTry, Outcome.bind_failed] at h
  simp only [processModules, Outcome.bind_failed]
  rcases h with h | ⟨⟨m₁, effects⟩, h₁, h | ⟨c', _, h⟩⟩
  · exact Or.inl h
  · exact absurd h corePre_not_failed
  · refine Or.inr ⟨_, h₁, ?_⟩
    rcases h with h | ⟨_, _, h⟩
    · exact Or.inl h
    · exact absurd h Outcome.not_failed_pure

end Transaction

/-! ## One turn of the loop -/

section Turn

variable {D S : Type} [LinearOrder D] [Hashing D] {n : NodeApp D S M X}
  {b : FinalizedBlock D X} {idx : ℕ} {citem : CItem X}

/-- The copies in memory say what the tables say. -/
structure Coherent (n : NodeApp D S M X) : Prop where
  peerSet : ∀ s, n.peerSet = some s → s = n.modules.ctrl.getPeerSet
  modulesConfigs : ∀ configs, n.modulesConfigs = some configs →
    configs = n.modules.ctrl.modulesConfigs ∧ n.modulesMap = configs

omit [OtherModules M X E] [Hashing D] in
theorem load_coherent (c : Consensus D S) (m : Modules M) (own : OwnVotes)
    (pos : BlockRound × ℕ) (applied : List (BlockRound × ℕ)) :
    Coherent (load c m own pos applied : NodeApp D S M X) where
  peerSet s h := by cases h
  modulesConfigs configs h := by cases h

/-- What an item does to modules that find the copies in memory true. -/
def itemOutcome (E : Type) [OtherModules M X E] (inits : ModulesInits)
    (m : Modules M) (b : FinalizedBlock D X) (citem : CItem X) :
    Outcome ProcessCItemError (Modules M × List (ModuleCItemEffect E)) :=
  processModules inits m.ctrl.modulesConfigs m b.header.round b.peerPubkey
    m.ctrl.getPeerSet citem

/-- The ways a turn of the loop goes. -/
inductive Turned (E : Type) [OtherModules M X E] (inits : ModulesInits)
    (n n' : NodeApp D S M X) (b : FinalizedBlock D X) (idx : ℕ)
    (citem : CItem X) : Prop
  | skipped (hlt : idx < n.curRoundIdx.2) (h : n' = n.advance b idx)
  | applied {m : Modules M} {effects : List (ModuleCItemEffect E)}
      {c : Consensus D S} {peerSet : Option PeerSet}
      {configs : Option ModulesConfigs} (hle : n.curRoundIdx.2 ≤ idx)
      (hout : itemOutcome E inits n.modules b citem = .ok (m, effects))
      (hpre : processConsensusChangeEffectsCorePre n.curRoundIdx.1
        b.header.timestamp n.consensus effects =
          (.ok c : Outcome ProcessCItemError _))
      (h : n' = ({ n with
        consensus := c
        modules := m
        own := ownVotesAfter E n.modules.ctrl.modulesConfigs n.modules b.peerPubkey
          n.own citem
        appCurRound := n.curRoundIdx
        applied := n.applied ++ [(b.header.round, idx)]
        modulesMap := n.modules.ctrl.modulesConfigs
        peerSet := peerSet
        modulesConfigs := configs } : NodeApp D S M X).advance b idx)
  | failed {peerSet : Option PeerSet} {configs : Option ModulesConfigs}
      (hle : n.curRoundIdx.2 ≤ idx)
      (hout : (itemOutcome E inits n.modules b citem).Failed)
      (h : n' = ({ n with
        appCurRound := (n.curRoundIdx.1, n.curRoundIdx.2 + 1)
        modulesMap := n.modules.ctrl.modulesConfigs
        peerSet := peerSet
        modulesConfigs := configs } : NodeApp D S M X).advance b idx)
  | stuck {peerSet : Option PeerSet} {configs : Option ModulesConfigs}
      (hout : ∀ m effects c,
        itemOutcome E inits n.modules b citem = .ok (m, effects) →
        processConsensusChangeEffectsCorePre n.curRoundIdx.1 b.header.timestamp
          n.consensus effects ≠ (.ok c : Outcome ProcessCItemError _))
      (h : n' = { n with
        modulesMap := n.modules.ctrl.modulesConfigs
        peerSet := peerSet
        modulesConfigs := configs })

omit [OtherModules M X E] [Hashing D] in
theorem reload_eq (h : n.Coherent) : n.reloadInvalidatedCopies = { n with
    modulesMap := n.modules.ctrl.modulesConfigs
    peerSet := some n.modules.ctrl.getPeerSet
    modulesConfigs := some n.modules.ctrl.modulesConfigs } := by
  have hset : n.peerSet.getD n.modules.ctrl.getPeerSet =
      n.modules.ctrl.getPeerSet := by
    cases hs : n.peerSet with
    | none => rfl
    | some s => exact h.peerSet s hs
  unfold reloadInvalidatedCopies
  rw [hset]
  dsimp only
  cases hc : n.modulesConfigs with
  | none => rfl
  | some configs =>
      obtain ⟨rfl, hmap⟩ := h.modulesConfigs configs hc
      rw [← hmap]

theorem turn_spec (inits : ModulesInits) (b : FinalizedBlock D X) (idx : ℕ)
    (citem : CItem X) (h : n.Coherent) :
    Turned E inits n (turn E inits n b idx citem) b idx citem ∧
      (turn E inits n b idx citem).Coherent := by
  unfold turn
  split
  case isFalse hlt =>
    exact ⟨.skipped (by omega) rfl, ⟨h.peerSet, h.modulesConfigs⟩⟩
  case isTrue hle =>
    rw [reload_eq h]
    dsimp only
    unfold processCitem
    dsimp only
    split
    · next r hr =>
      obtain ⟨effects, hout, hpre, hset, hconfigs⟩ := processCitemTry_ok hr
      have htold := processModules_told hout
      refine ⟨.applied hle hout hpre rfl, ⟨?_, ?_⟩⟩
      · intro s hs
        cases hs
        rw [hset]
        exact htold.peers
      · intro configs hsome
        change r.modulesConfigs = some configs at hsome
        rw [hconfigs, processConsensusChangeEffectsCorePost] at hsome
        split at hsome
        · cases hsome
        · next hany =>
          cases hsome
          exact ⟨(htold.modules (by simpa using hany)).symm, rfl⟩
    · next e hr =>
      refine ⟨.failed hle (processCitemTry_failed ⟨e, hr⟩) rfl, ⟨?_, ?_⟩⟩
      · intro s hs
        cases hs
      · intro configs hs
        cases hs
    · next msg hr =>
      refine ⟨.stuck ?_ rfl, ⟨?_, ?_⟩⟩
      · intro m effects c hout hpre
        obtain ⟨r, hr'⟩ := processCitemTry_returns hout hpre
        rw [hr'] at hr
        cases hr
      · intro s hs
        cases hs
        rfl
      · intro configs hs
        cases hs
        exact ⟨rfl, rfl⟩

/-- The ways a step of the app goes. -/
inductive NextCase (E : Type) [OtherModules M X E] (inits : ModulesInits)
    (blocks : List (FinalizedBlock D X)) (n n' : NodeApp D S M X) : Prop
  | idle (hidle : ∀ b idx, n.block = some (b, idx) → b.citems[idx]? = none)
      (h : n' = n)
  | opened (b : FinalizedBlock D X) (hblock : n.block = none)
      (hfind : blocks.find? (fun b => decide (n.curRoundIdx.1 ≤ b.header.round)) =
        some b)
      (h : n' = { n with block := some (b, 0) })
  | finished (b : FinalizedBlock D X) (idx : ℕ) (hblock : n.block = some (b, idx))
      (hend : b.citems[idx]? = none)
      (h : n' = { n with
        curRoundIdx := (b.header.round + 1, 0)
        appCurRound := (b.header.round + 1, 0)
        block := none })
  | turned (b : FinalizedBlock D X) (idx : ℕ) (citem : CItem X)
      (hblock : n.block = some (b, idx)) (hcitem : b.citems[idx]? = some citem)
      (hturn : Turned E inits n n' b idx citem)

theorem next_spec (E : Type) [OtherModules M X E] (inits : ModulesInits)
    (blocks : List (FinalizedBlock D X)) (h : n.Coherent) :
    NextCase E inits blocks n (n.next E inits blocks) ∧
      (n.next E inits blocks).Coherent := by
  unfold next
  cases hblock : n.block with
  | none =>
      dsimp only
      split
      · next b hfind =>
          exact ⟨.opened b hblock hfind rfl, ⟨h.peerSet, h.modulesConfigs⟩⟩
      · refine ⟨.idle (fun b k hb => ?_) rfl, h⟩
        rw [hblock] at hb
        cases hb
  | some bk =>
      obtain ⟨b, k⟩ := bk
      dsimp only
      cases hcitem : b.citems[k]? with
      | none =>
          dsimp only
          unfold finishBlock
          split
          · next round hround =>
              obtain ⟨_, rfl⟩ := BlockRound.nextExpect_eq_ok.mp hround
              exact ⟨.finished b k hblock hcitem rfl,
                ⟨h.peerSet, h.modulesConfigs⟩⟩
          · refine ⟨.idle (fun b' k' hb => ?_) rfl, h⟩
            rw [hblock] at hb
            cases hb
            exact hcitem
      | some citem =>
          obtain ⟨hturn, hc⟩ := turn_spec (E := E) inits b k citem h
          exact ⟨.turned b k citem hblock hcitem hturn, hc⟩

end Turn

end NodeApp

end Bfte
