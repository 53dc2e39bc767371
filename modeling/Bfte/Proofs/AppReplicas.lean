import Bfte.Lib.Replay
import Bfte.Proofs.Replicas
import Bfte.Proofs.Resume

/-!
# Two nodes that go through the same blocks

A citem is processed alike by nodes whose replicated tables are equal. Here that is lifted
to whole runs: two nodes with keys, consensus databases and crashes of their own go through
the same blocks, and their modules see the same items take effect, in the same order.
Neither waits for the other. At any time the one is behind the other or ahead of it, and
when the same items have taken effect on both, the tables are replicas.

Two builds may know different kinds of modules. What they have to agree on is the kinds
that are voted for. What the modules other than `consensus-ctrl` keep for themselves is up
to them: they only have to treat tables alike that they call alike.
-/

namespace Bfte

namespace Outcome

variable {α β ε ε' : Type}

/-- Both fail, or what both return is related. -/
def Alike (R : α → β → Prop) : Outcome ε α → Outcome ε' β → Prop
  | .ok a, .ok b => R a b
  | .error _, .error _ => True
  | _, _ => False

variable {R : α → β → Prop} {x : Outcome ε α} {y : Outcome ε' β}

theorem Alike.bind {α' β' : Type} {Q : α' → β' → Prop} {f : α → Outcome ε α'}
    {g : β → Outcome ε' β'} (h : Alike R x y) (hfg : ∀ a b, R a b → Alike Q (f a) (g b)) :
    Alike Q (x >>= f) (y >>= g) := by
  rcases x with e | a <;> rcases y with e' | b
  · exact trivial
  · exact h.elim
  · exact h.elim
  · exact hfg a b h

/-- A step that is the same. -/
theorem Alike.after {α' β' : Type} {Q : α' → β' → Prop} {f : α → Outcome ε α'}
    {g : α → Outcome ε β'} (h : ∀ a, x = .ok a → Alike Q (f a) (g a)) :
    Alike Q (x >>= f) (x >>= g) := by
  rcases x with e | a
  · exact trivial
  · exact h a rfl

theorem Alike.mapErr {δ δ' : Type} {f : ε → δ} {g : ε' → δ'} (h : Alike R x y) :
    Alike R (x.mapErr f) (y.mapErr g) := by
  rcases x with e | a <;> rcases y with e' | b
  · cases e <;> cases e' <;> exact trivial
  · exact h.elim
  · exact h.elim
  · exact h

theorem Alike.rel {γ δ : Type} {Q : γ → δ → Prop} {f : α → γ} {g : β → δ}
    (h : Alike R x y) (hfg : ∀ a b, R a b → Q (f a) (g b)) :
    Option.Rel Q (x.toOption.map f) (y.toOption.map g) := by
  rcases x with e | a <;> rcases y with e' | b
  · exact .none
  · exact h.elim
  · exact h.elim
  · exact .some (hfg a b h)

theorem Alike.toOption (h : Alike R x y) : Option.Rel R x.toOption y.toOption := by
  rcases x with e | a <;> rcases y with e' | b
  · exact .none
  · exact h.elim
  · exact h.elim
  · exact .some h

theorem toOption_eq_some {a : α} : x.toOption = some a ↔ x = .ok a := by
  rcases x with e | a'
  · exact iff_of_false (fun h => by cases h) (fun h => by cases h)
  · exact ⟨fun h => congrArg Except.ok (Option.some.inj h),
      fun h => congrArg some (Except.ok.inj h)⟩

end Outcome

namespace NodeApp

open Outcome

variable {D S M X : Type} (E : Type) [OtherModules M X E]

/-- Tables that are related, and the same effects. -/
def WithEffects {α β : Type} (R : α → α → Prop) (a a' : α × List β) : Prop :=
  R a.1 a'.1 ∧ a.2 = a'.2

/-- Tables of all modules that are replicas. -/
structure Replicated (R : M → M → Prop) (m m' : Modules M) : Prop where
  ctrl : CtrlDb.Replicas m.ctrl m'.ctrl
  rest : R m.rest m'.rest

/-- The modules other than `consensus-ctrl` make the same of tables that are related. -/
structure Deterministic (X : Type) [OtherModules M X E] (R : M → M → Prop) : Prop where
  processCitem : ∀ m m' id config round k peerSet (x : X), R m m' →
    Alike (WithEffects R)
      (OtherModules.processCitem m id config round k peerSet x : Outcome String (M × List E))
      (OtherModules.processCitem m' id config round k peerSet x)
  processInput : ∀ m m' id config (x : X), R m m' →
    Alike (WithEffects R)
      (OtherModules.processInput m id config x : Outcome String (M × List E))
      (OtherModules.processInput m' id config x)
  processOutput : ∀ m m' id config (x : X), R m m' →
    Alike (WithEffects R)
      (OtherModules.processOutput m id config x : Outcome String (M × List E))
      (OtherModules.processOutput m' id config x)
  processEffects : ∀ m m' id config peerSet (effects : List (ModuleCItemEffect E)),
    R m m' → Alike R
      (OtherModules.processEffects (X := X) m id config peerSet effects)
      (OtherModules.processEffects (X := X) m' id config peerSet effects)

/-- Two builds have the same init, or none, for a kind that the item votes for. -/
def SameInits (M : Type) [OtherModules M X E] (inits inits' : ModulesInits) :
    CItem X → Prop
  | .peerCItem citem => ∀ kind version,
      OtherModules.decodeCtrl M E citem.inner = some (.voteAddModule kind version) →
        inits'.get? kind = inits.get? kind
  | .transaction _ _ => True

variable {E} {R : M → M → Prop} {inits inits' : ModulesInits} {m m' : Modules M}
  {modules : ModulesConfigs}

/-! ## One citem -/

theorem agree_alike {α : Type} {Q : α → α → Prop} {ε : Type}
    {x y : Outcome ε (α × List CtrlEffect)} (h : Agree Q x y) :
    Alike (WithEffects Q) x y := by
  rcases x with e | ⟨a, effects⟩ <;> rcases y with e' | ⟨a', effects'⟩
  · exact trivial
  · exact h.elim
  · exact h.elim
  · exact ⟨h.1, h.2.symm⟩

/-- Where a kind has the same init, a module of it is admitted alike. -/
theorem admits_iff (h : CtrlDb.Replicas m.ctrl m'.ctrl) {kind : ModuleKind}
    (hinits : inits'.get? kind = inits.get? kind) :
    CtrlDb.Admits inits m.ctrl kind ↔ CtrlDb.Admits inits' m'.ctrl kind := by
  unfold CtrlDb.Admits
  rw [hinits, h.modulesConfigs]

theorem processModuleCitem_alike (hdet : Deterministic E X R) (h : Replicated R m m')
    {citem : ModuleDyn X} (hinits : SameInits E M inits inits' (.peerCItem citem))
    (round : BlockRound) (k : PeerPubkey) (peerSet : PeerSet) :
    Alike (WithEffects (Replicated R))
      (processModuleCitem (E := E) inits modules m round k peerSet citem)
      (processModuleCitem (E := E) inits' modules m' round k peerSet citem) := by
  unfold processModuleCitem
  refine .after fun _ hvoter => .after fun config _ => ?_
  have hmember : peerSet.contains k = true := (Outcome.ensure_eq_ok.mp hvoter)
  split
  · have hagree := (CtrlDb.processCitem_agree_iff h.ctrl hmember _).mpr
      fun kind version hvote => admits_iff h.ctrl (hinits kind version hvote)
    refine (agree_alike hagree).mapErr.bind ?_
    rintro ⟨ctrl, effects⟩ ⟨ctrl', effects'⟩ ⟨hctrl, rfl⟩
    exact ⟨⟨hctrl, h.rest⟩, rfl⟩
  · refine (hdet.processCitem _ _ _ _ _ _ _ _ h.rest).mapErr.bind ?_
    rintro ⟨rest, effects⟩ ⟨rest', effects'⟩ ⟨hrest, rfl⟩
    exact ⟨⟨h.ctrl, hrest⟩, rfl⟩

section Parts

variable {part : M → ModuleId → ModuleConfig → X → Outcome String (M × List E)}
  {text : String} {failed : String → ModuleId → ProcessCItemError}

omit [OtherModules M X E] in
theorem processPart_alike
    (hpart : ∀ m m' id config (x : X), R m m' →
      Alike (WithEffects R) (part m id config x) (part m' id config x))
    (h : Replicated R m m') (item : ModuleDyn X) :
    Alike (WithEffects (Replicated R)) (processPart modules part text failed m item)
      (processPart modules part text failed m' item) := by
  unfold processPart
  refine .after fun config _ => ?_
  split
  · exact trivial
  · refine (hpart _ _ _ _ _ h.rest).mapErr.bind ?_
    rintro ⟨rest, effects⟩ ⟨rest', effects'⟩ ⟨hrest, rfl⟩
    exact ⟨⟨h.ctrl, hrest⟩, rfl⟩

omit [OtherModules M X E] in
theorem processParts_alike
    (hpart : ∀ m m' id config (x : X), R m m' →
      Alike (WithEffects R) (part m id config x) (part m' id config x))
    (h : Replicated R m m') (items : List (ModuleDyn X)) :
    Alike (WithEffects (Replicated R)) (processParts modules part text failed m items)
      (processParts modules part text failed m' items) := by
  induction items generalizing m m' with
  | nil => exact ⟨h, rfl⟩
  | cons item items ih =>
      refine (processPart_alike hpart h item).bind ?_
      rintro ⟨m₁, effects⟩ ⟨m₁', effects'⟩ ⟨h₁, rfl⟩
      refine (ih h₁).bind ?_
      rintro ⟨m₂, more⟩ ⟨m₂', more'⟩ ⟨h₂, rfl⟩
      exact ⟨h₂, rfl⟩

end Parts

theorem collectEffects_alike (hdet : Deterministic E X R) (h : Replicated R m m')
    {citem : CItem X} (hinits : SameInits E M inits inits' citem) (round : BlockRound)
    (k : PeerPubkey) (peerSet : PeerSet) :
    Alike (WithEffects (Replicated R))
      (collectEffects (E := E) inits modules m round k peerSet citem)
      (collectEffects (E := E) inits' modules m' round k peerSet citem) := by
  cases citem with
  | peerCItem citem => exact processModuleCitem_alike hdet h hinits round k peerSet
  | transaction inputs outputs =>
      refine (processParts_alike hdet.processInput h inputs).bind ?_
      rintro ⟨m₁, effects⟩ ⟨m₁', effects'⟩ ⟨h₁, rfl⟩
      refine (processParts_alike hdet.processOutput h₁ outputs).bind ?_
      rintro ⟨m₂, more⟩ ⟨m₂', more'⟩ ⟨h₂, rfl⟩
      exact ⟨h₂, rfl⟩

theorem processEffects_alike (hdet : Deterministic E X R) (h : Replicated R m m')
    (peerSet : PeerSet) (effects : List (ModuleCItemEffect E))
    (entries : List (ModuleId × ModuleConfig)) :
    Alike (Replicated R) (processEffects (X := X) peerSet effects m entries)
      (processEffects (X := X) peerSet effects m' entries) := by
  induction entries generalizing m m' with
  | nil => exact h
  | cons entry entries ih =>
      obtain ⟨id, config⟩ := entry
      unfold processEffects
      split
      · exact ih h
      · refine (hdet.processEffects _ _ _ _ _ _ h.rest).mapErr.bind ?_
        intro rest rest' hrest
        exact ih ⟨h.ctrl, hrest⟩

/-- What an item does to replicas makes replicas of them. -/
theorem itemOutcome_alike (hdet : Deterministic E X R) (h : Replicated R m m')
    (b : FinalizedBlock D X) {citem : CItem X}
    (hinits : SameInits E M inits inits' citem) :
    Alike (WithEffects (Replicated R)) (itemOutcome E inits m b citem)
      (itemOutcome E inits' m' b citem) := by
  unfold itemOutcome
  rw [show m'.ctrl.modulesConfigs = m.ctrl.modulesConfigs from h.ctrl.modulesConfigs,
    show m'.ctrl.getPeerSet = m.ctrl.getPeerSet by
      unfold CtrlDb.getPeerSet
      rw [h.ctrl.peers]]
  refine (collectEffects_alike hdet h hinits _ _ _).bind ?_
  rintro ⟨m₁, effects⟩ ⟨m₁', effects'⟩ ⟨h₁, rfl⟩
  refine (processEffects_alike hdet h₁ _ _ _).bind ?_
  intro m₂ m₂' h₂
  exact ⟨h₂, rfl⟩

/-! ## The items of all blocks -/

/-- The tables after an item that takes effect. -/
def itemEffect (E : Type) [OtherModules M X E] (inits : ModulesInits) (m : Modules M)
    (a : FinalizedBlock D X × CItem X × ℕ) : Option (Modules M) :=
  (itemOutcome E inits m a.1 a.2.1).toOption.map Prod.fst

/-- What is noted down of an item. -/
def itemPlace (a : FinalizedBlock D X × CItem X × ℕ) : BlockRound × ℕ :=
  (a.1.header.round, a.2.2)

theorem applyItem_eq_step (b : FinalizedBlock D X) (s : Applied M) (item : CItem X × ℕ) :
    applyItem E inits b s item =
      Replay.step (itemEffect E inits) itemPlace s (b, item) := by
  unfold applyItem Replay.step itemEffect
  dsimp only
  cases itemOutcome E inits s.1 b item.1 <;> rfl

theorem throughItems_eq_replay (b : FinalizedBlock D X) (f : ℕ) (s : Applied M) :
    throughItems (applyItem E inits) b f s = Replay.replay (itemEffect E inits) itemPlace
      ((b.citems.zipIdx.take f).map fun item => (b, item)) s := by
  unfold throughItems Replay.replay
  rw [List.foldl_map]
  congr 1
  funext s item
  exact applyItem_eq_step b s item

theorem applyBlocks_eq_replay (blocks : List (FinalizedBlock D X)) (s : Applied M) :
    applyBlocks E inits blocks s =
      Replay.replay (itemEffect E inits) itemPlace (allItems blocks) s := by
  induction blocks generalizing s with
  | nil => rfl
  | cons b blocks ih =>
      have hall : b.citems.zipIdx.take b.citems.length = b.citems.zipIdx :=
        List.take_of_length_le (by rw [List.length_zipIdx])
      show applyBlocks E inits blocks
        (throughItems (applyItem E inits) b b.citems.length s) = _
      rw [ih, throughItems_eq_replay, hall]
      show _ = Replay.replay _ _ (_ ++ allItems blocks) s
      rw [Replay.replay_append]

/-- The first items of the first block are the first of all. -/
theorem throughPart_eq_replay {blocks : List (FinalizedBlock D X)} {f : ℕ}
    (hf : ∀ b ∈ blocks.head?, f ≤ b.citems.length) (s : Applied M) :
    throughPart (applyItem E inits) blocks f s =
      Replay.replay (itemEffect E inits) itemPlace ((allItems blocks).take f) s := by
  cases blocks with
  | nil =>
      rw [show allItems ([] : List (FinalizedBlock D X)) = [] from rfl, List.take_nil]
      rfl
  | cons b blocks =>
      have hlen : f ≤ (b.citems.zipIdx.map fun item => (b, item)).length := by
        rw [List.length_map, List.length_zipIdx]
        exact hf b rfl
      show throughItems (applyItem E inits) b f s = Replay.replay _ _ ((_ ++ allItems blocks).take f) s
      rw [List.take_append_of_le_length hlen, ← List.map_take, throughItems_eq_replay]

/-- A node is somewhere in the list of all items, and those it is before are in blocks of
the round it has saved and later ones. -/
theorem Reached.exists_eq [LinearOrder D] {blocks : List (FinalizedBlock D X)}
    {s : Applied M} {n : NodeApp D S M X} (h : Reached E inits blocks s n) :
    ∃ k, (n.modules, n.applied) =
      Replay.replay (itemEffect E inits) itemPlace ((allItems blocks).take k) s ∧
      ∀ a ∈ (allItems blocks).drop k, n.appCurRound.1 ≤ a.1.header.round := by
  obtain ⟨done, rest, f, rfl, hn⟩ := h
  refine ⟨(allItems done).length + f, ?_, fun a ha => ?_⟩
  · rw [hn.state, applyBlocks_eq_replay, throughPart_eq_replay hn.within, allItems_append,
      List.take_length_add_append, Replay.replay_append]
  · rw [allItems_append, List.drop_length_add_append] at ha
    obtain ⟨b, hb, hitem⟩ := List.mem_flatMap.mp (List.mem_of_mem_drop ha)
    obtain ⟨item, _, rfl⟩ := List.mem_map.mp hitem
    exact hn.above b hb

/-- Being somewhere in the items of some blocks is being somewhere in those of more. -/
theorem exists_take_of_prefix {blocks blocks' : List (FinalizedBlock D X)}
    (h : blocks <+: blocks') (k : ℕ) :
    ∃ k', (allItems blocks).take k = (allItems blocks').take k' := by
  obtain ⟨more, rfl⟩ := h
  refine ⟨min k (allItems blocks).length, ?_⟩
  rw [allItems_append, List.take_append_of_le_length (Nat.min_le_right _ _),
    List.take_eq_take_min]

/-! ## Two nodes -/

/-- Two nodes go through the same blocks, the one perhaps knowing more of them than the
other, each with crashes that make nothing succeed again. What has taken effect on the one
is at any time a prefix of what has on the other, and where it is the same, the tables are
replicas. -/
theorem items_take_effect_alike [LinearOrder D] [Hashing D] [DecidableEq S] [Signing D S]
    {blocks blocks' : List (FinalizedBlock D X)} (hblocks : blocks <+: blocks')
    (hsorted : blocks'.Pairwise fun b b' => b.header.round < b'.header.round)
    (hdet : Deterministic E X R)
    (hinits : ∀ b ∈ blocks', ∀ citem ∈ b.citems, SameInits E M inits inits' citem)
    {c c' : Consensus D S} {own own' : OwnVotes} (hstart : Replicated R m m')
    {ops ops' : List (AppOp D S)}
    (hops : Trail.Guarded (step E inits blocks) (HarmlessRestart E inits)
      (load c m own (0, 0) []) ops)
    (hops' : Trail.Guarded (step E inits' blocks') (HarmlessRestart E inits')
      (load c' m' own' (0, 0) []) ops') :
    ((run E inits blocks (load c m own (0, 0) []) ops).applied <+:
        (run E inits' blocks' (load c' m' own' (0, 0) []) ops').applied ∨
      (run E inits' blocks' (load c' m' own' (0, 0) []) ops').applied <+:
        (run E inits blocks (load c m own (0, 0) []) ops).applied) ∧
    ((run E inits blocks (load c m own (0, 0) []) ops).applied =
        (run E inits' blocks' (load c' m' own' (0, 0) []) ops').applied →
      Replicated R (run E inits blocks (load c m own (0, 0) []) ops).modules
        (run E inits' blocks' (load c' m' own' (0, 0) []) ops').modules) := by
  obtain ⟨k, hk, _⟩ := (run_reached (hsorted.sublist hblocks.sublist) hops).exists_eq
  obtain ⟨j, hj, _⟩ := (run_reached hsorted hops').exists_eq
  obtain ⟨i, hi⟩ := exists_take_of_prefix hblocks k
  rw [hi] at hk
  have hlog : ∀ a ∈ allItems blocks', ∀ m m', Replicated R m m' →
      Option.Rel (Replicated R) (itemEffect E inits m a) (itemEffect E inits' m' a) := by
    intro a ha m m' h
    obtain ⟨b, hb, hitem⟩ := List.mem_flatMap.mp ha
    obtain ⟨⟨citem, idx⟩, hmem, rfl⟩ := List.mem_map.mp hitem
    have hcitem : citem ∈ b.citems := (List.mem_zipIdx' hmem).2 ▸ List.getElem_mem _
    exact (itemOutcome_alike hdet h b (hinits b hb citem hcitem)).rel fun _ _ h => h.1
  have hempty : Replay.Alike (Replicated R) ((m, []) : Applied M) (m', []) :=
    ⟨hstart, rfl⟩
  have hboth := hempty.anywhere itemPlace hlog i j
  rw [← hk, ← hj] at hboth
  exact hboth

/-! ## Two builds -/

theorem deterministic_alone : Deterministic (M := Unit) Empty
    (Option ConsensusCtrlCitem) Eq where
  processCitem _ _ _ _ _ _ _ _ h := ⟨h, rfl⟩
  processInput _ _ _ _ _ h := ⟨h, rfl⟩
  processOutput _ _ _ _ _ h := ⟨h, rfl⟩
  processEffects _ _ _ _ _ _ h := h

/-- The tables of two peers. -/
def pairModules : Modules Unit :=
  ⟨CtrlDb.empty.bootstrapConsensus ModuleId.consensusCtrl ⟨0, 0⟩ ⟨[10, 11]⟩, ()⟩

/-- A vote that fails, and one that does not. -/
def addBlocks : List (FinalizedBlock ListDigest (Option ConsensusCtrlCitem)) :=
  [voteBlock 0 11 [.voteRemovePeer 99, .voteAddPeer 12]]

/-- And the vote that decides. -/
def moreAddBlocks : List (FinalizedBlock ListDigest (Option ConsensusCtrlCitem)) :=
  addBlocks ++ [voteBlock 1 10 [.voteAddPeer 12]]

/-- No vote in the blocks is on a kind that the builds differ in. -/
theorem moreAddBlocks_sameInits : ∀ b ∈ moreAddBlocks, ∀ citem ∈ b.citems,
    SameInits Empty Unit .empty CtrlModule.newBuild citem := by
  intro b hb citem hcitem
  rcases List.mem_append.mp hb with hold | hnew
  · rw [List.mem_singleton.mp hold] at hcitem
    simp only [voteBlock, List.map_cons, List.map_nil, List.mem_cons, List.not_mem_nil,
      or_false] at hcitem
    rcases hcitem with rfl | rfl <;> exact fun _ _ h => by cases h
  · rw [List.mem_singleton.mp hnew] at hcitem
    rw [List.mem_singleton.mp hcitem]
    exact fun _ _ h => by cases h

/-- A node without a key crashes between the votes; a peer of another build does not, and
knows one more block. -/
theorem builds_take_effect_alike : ∃ c c' : Consensus ListDigest PlainSig,
    Consensus.init (plainParams [10, 11]) Db.empty none none = .ok c ∧
    Consensus.init (plainParams [10, 11]) Db.empty (some 10) none = .ok c' ∧
    (run Empty .empty addBlocks (load c pairModules (.ctrlOnly none) (0, 0) [])
      (nexts 2 ++ .restart :: nexts 4)).applied = [(0, 1)] ∧
    CtrlDb.Replicas
      (run Empty .empty addBlocks (load c pairModules (.ctrlOnly none) (0, 0) [])
        (nexts 2 ++ .restart :: nexts 4)).modules.ctrl
      (run Empty CtrlModule.newBuild moreAddBlocks (load c' pairModules (.ctrlOnly (some 10)) (0, 0) [])
        (nexts 3)).modules.ctrl := by
  have hrun : (Consensus.init (plainParams [10, 11]) (Db.empty : Db ListDigest PlainSig)
      none none).Returns fun c =>
        (Consensus.init (plainParams [10, 11]) (Db.empty : Db ListDigest PlainSig)
          (some 10) none).Returns fun c' =>
            Trail.Guarded (step Empty .empty addBlocks) (HarmlessRestart Empty .empty)
              (load c pairModules (.ctrlOnly none) (0, 0) []) (nexts 2 ++ .restart :: nexts 4) ∧
            (run Empty .empty addBlocks (load c pairModules (.ctrlOnly none) (0, 0) [])
              (nexts 2 ++ .restart :: nexts 4)).applied = [(0, 1)] ∧
            (run Empty CtrlModule.newBuild moreAddBlocks (load c' pairModules (.ctrlOnly (some 10)) (0, 0) [])
              (nexts 3)).applied = [(0, 1)] ∧
            Trail.Guarded (step Empty CtrlModule.newBuild moreAddBlocks)
              (HarmlessRestart Empty CtrlModule.newBuild) (load c' pairModules (.ctrlOnly (some 10)) (0, 0) [])
              (nexts 3) := by
    decide +kernel
  obtain ⟨c, hc, hrun⟩ := Outcome.returns_iff.mp hrun
  obtain ⟨c', hc', hops, happlied, happlied', hops'⟩ := Outcome.returns_iff.mp hrun
  have halike := items_take_effect_alike (List.prefix_append _ _)
    (by simp [addBlocks, voteBlock, BlockHeader.build]) deterministic_alone
    moreAddBlocks_sameInits ⟨⟨rfl, rfl, rfl, rfl, rfl, rfl⟩, rfl⟩ hops hops'
  exact ⟨c, c', hc, hc', happlied, (halike.2 (happlied.trans happlied'.symm)).ctrl⟩

end NodeApp

end Bfte
