import Bfte.App.CtrlModule

/-!
# What two nodes make of one citem

Nodes with the same replicated tables and anything else different process one
citem alike, with one exception: a vote to add a module is checked against the
inits a node was built with, and a node that lacks the kind, or has it as a
singleton it has already, throws the vote away where others count it.
-/

namespace Bfte

/-- The replicated tables of two nodes are equal. The version a node notes down
of itself is not one of them. -/
structure CtrlDb.Replicas (db db' : CtrlDb) : Prop where
  peers : db'.peers = db.peers
  addPeerVotes : db'.addPeerVotes = db.addPeerVotes
  removePeerVotes : db'.removePeerVotes = db.removePeerVotes
  addModuleVotes : db'.addModuleVotes = db.addModuleVotes
  modulesConfigs : db'.modulesConfigs = db.modulesConfigs
  modulesVersionsVotes : db'.modulesVersionsVotes = db.modulesVersionsVotes

/-- Both results are failures, or both are the same effects and replicas. -/
def Agree {α : Type} (R : α → α → Prop) {ε : Type} :
    Outcome ε (α × List CtrlEffect) → Outcome ε (α × List CtrlEffect) → Prop
  | .ok (a, effects), .ok (a', effects') => R a a' ∧ effects' = effects
  | .error _, .error _ => True
  | _, _ => False

namespace Agree

variable {α β ε : Type} {R : α → α → Prop}

theorem ok {a a' : α} {effects : List CtrlEffect} (h : R a a') :
    Agree R (.ok (a, effects) : Outcome ε _) (.ok (a', effects)) := ⟨h, rfl⟩

/-- A step both make alike. -/
theorem bind {x : Outcome ε β} {f g : β → Outcome ε (α × List CtrlEffect)}
    (h : ∀ b, x = .ok b → Agree R (f b) (g b)) : Agree R (x >>= f) (x >>= g) := by
  cases x with
  | ok b => exact h b rfl
  | error e => exact trivial

theorem ite {p : Prop} [Decidable p]
    {x x' y y' : Outcome ε (α × List CtrlEffect)} (ht : Agree R x x')
    (hf : Agree R y y') : Agree R (if p then x else y) (if p then x' else y') := by
  split
  · exact ht
  · exact hf

/-- If they agree, one returns where the other does. -/
theorem isOk {x y : Outcome ε (α × List CtrlEffect)} (h : Agree R x y) :
    (∃ res, x = .ok res) ↔ ∃ res, y = .ok res := by
  rcases x with e | a <;> rcases y with e' | a'
  · simp
  · exact h.elim
  · exact h.elim
  · simp

end Agree

namespace CtrlDb

theorem Replicas.exists_eq {db db' : CtrlDb} (h : Replicas db db') :
    ∃ v, db' = { db with selfVersion := v } := by
  obtain ⟨hp, ha, hr, hm, hc, hv⟩ := h
  refine ⟨db'.selfVersion, ?_⟩
  cases db'
  cases hp
  cases ha
  cases hr
  cases hm
  cases hc
  cases hv
  rfl

variable {db db' : CtrlDb} {voter : PeerPubkey} {peerSet : PeerSet}

/-! ## Votes that read replicated tables only -/

theorem processCitemVoteAddPeer_agree (h : Replicas db db') (peer : PeerPubkey) :
    Agree Replicas (db.processCitemVoteAddPeer voter peerSet peer)
      (db'.processCitemVoteAddPeer voter peerSet peer) := by
  obtain ⟨v, rfl⟩ := h.exists_eq
  refine .bind fun _ _ => .bind fun n _ => .ite ?_ ?_
  · exact .ok ⟨rfl, rfl, rfl, rfl, rfl, rfl⟩
  · exact .ok ⟨rfl, rfl, rfl, rfl, rfl, rfl⟩

theorem processCitemVoteRemovePeer_agree (h : Replicas db db')
    (peer : PeerPubkey) :
    Agree Replicas (db.processCitemVoteRemovePeer voter peerSet peer)
      (db'.processCitemVoteRemovePeer voter peerSet peer) := by
  obtain ⟨v, rfl⟩ := h.exists_eq
  refine .bind fun _ _ => .bind fun _ _ => .ite ?_ (.bind fun n _ => .ite ?_ ?_)
  · exact .ok ⟨rfl, rfl, rfl, rfl, rfl, rfl⟩
  · exact .ok ⟨rfl, rfl, rfl, rfl, rfl, rfl⟩
  · exact .ok ⟨rfl, rfl, rfl, rfl, rfl, rfl⟩

theorem processCitemVoteModuleVersion_agree (h : Replicas db db') (id : ModuleId)
    (minor : ℕ) :
    Agree Replicas (db.processCitemVoteModuleVersion voter peerSet id minor)
      (db'.processCitemVoteModuleVersion voter peerSet id minor) := by
  obtain ⟨v, rfl⟩ := h.exists_eq
  refine .bind fun _ _ => ?_
  dsimp only
  cases db.modulesConfigs.get? id with
  | none => exact trivial
  | some config => exact .ok ⟨rfl, rfl, rfl, rfl, rfl, rfl⟩

/-! ## Votes to add a module -/

/-- A vote to add a module of the kind is let through: there is an init for it, and
it is not a singleton that exists. -/
def Admits (inits : ModulesInits) (db : CtrlDb) (kind : ModuleKind) : Prop :=
  (inits.get? kind).isSome = true ∧ ¬ (inits.get? kind = some true ∧
    db.modulesConfigs.values.any fun c => decide (c.kind = kind))

instance (inits : ModulesInits) (db : CtrlDb) (kind : ModuleKind) :
    Decidable (Admits inits db kind) := inferInstanceAs (Decidable (_ ∧ _))

/-- A vote to add a module goes through where the kind is admitted, and nowhere
else. -/
theorem processCitemVoteAddModule_isOk {inits : ModulesInits}
    (hvoter : peerSet.contains voter = true) {kind : ModuleKind}
    {version : ConsensusVersion} :
    (∃ res, db.processCitemVoteAddModule inits voter peerSet kind version =
      .ok res) ↔ Admits inits db kind := by
  constructor
  · rintro ⟨res, h⟩
    simp only [processCitemVoteAddModule, Outcome.bind_eq_ok,
      Outcome.ensure_eq_ok] at h
    obtain ⟨_, hinit, _, hfree, _⟩ := h
    exact ⟨hinit, hfree⟩
  · rintro ⟨hinit, hfree⟩
    unfold processCitemVoteAddModule
    rw [Outcome.ensure_of hinit, Outcome.ensure_of hfree]
    by_cases hall : (matchingVotes
        { db with
          addModuleVotes := db.addModuleVotes.insert voter (kind, version) }
        peerSet kind version.major).length = peerSet.len
    · -- the voter is one of the peers, so there is a vote to take the least of
      have hpos : peerSet.len ≠ 0 := List.length_pos_of_mem
        (of_decide_eq_true hvoter) |>.ne'
      have hsome : ∀ l : List ConsensusVersion, l.length = peerSet.len →
          (l.map ConsensusVersion.minor).min?.isSome = true := by
        rintro l hl
        refine List.isSome_min?_of_ne_nil fun hnil => hpos ?_
        rw [← hl, List.map_eq_nil_iff.mp hnil]
        rfl
      obtain ⟨minor, hminor⟩ := Option.isSome_iff_exists.mp (hsome _ hall)
      exact ⟨_, (if_pos hall).trans (Outcome.bind_eq_ok.mpr
        ⟨minor, Outcome.expect_eq_ok.mpr hminor, rfl⟩)⟩
    · exact ⟨_, if_neg hall⟩

theorem processCitemVoteAddModule_agree {inits inits' : ModulesInits}
    (h : Replicas db db') (hvoter : peerSet.contains voter = true)
    {kind : ModuleKind} {version : ConsensusVersion} :
    Agree Replicas
        (db.processCitemVoteAddModule inits voter peerSet kind version)
        (db'.processCitemVoteAddModule inits' voter peerSet kind version) ↔
      (Admits inits db kind ↔ Admits inits' db' kind) := by
  constructor
  · intro hagree
    have hok : ∀ (inits : ModulesInits) (db : CtrlDb),
        (∃ res, db.processCitemVoteAddModule inits voter peerSet kind version =
          .ok res) ↔ Admits inits db kind :=
      fun _ _ => processCitemVoteAddModule_isOk hvoter
    rw [← hok, ← hok]
    exact hagree.isOk
  · intro hsame
    by_cases hadmits : Admits inits db kind
    · obtain ⟨hinit', hfree'⟩ := hsame.mp hadmits
      obtain ⟨hinit, hfree⟩ := hadmits
      obtain ⟨v, rfl⟩ := h.exists_eq
      unfold processCitemVoteAddModule
      rw [Outcome.ensure_of hinit, Outcome.ensure_of hinit',
        Outcome.ensure_of hfree, Outcome.ensure_of hfree']
      refine .ite (.bind fun minor _ => ?_) ?_
      · exact .ok ⟨rfl, rfl, rfl, rfl, rfl, rfl⟩
      · exact .ok ⟨rfl, rfl, rfl, rfl, rfl, rfl⟩
    · have hfails : ∀ {i : ModulesInits} {d : CtrlDb}, ¬ Admits i d kind →
          ∃ e, d.processCitemVoteAddModule i voter peerSet kind version =
            .error e := by
        intro i d hnot
        cases hres : d.processCitemVoteAddModule i voter peerSet kind version with
        | error e => exact ⟨e, rfl⟩
        | ok res =>
            exact absurd ((processCitemVoteAddModule_isOk hvoter).mp
              ⟨res, hres⟩) hnot
      obtain ⟨e, he⟩ := hfails hadmits
      obtain ⟨e', he'⟩ := hfails (mt hsame.mpr hadmits)
      rw [he, he']
      exact trivial

theorem processCitem_agree_iff {inits inits' : ModulesInits}
    (h : Replicas db db') (hvoter : peerSet.contains voter = true)
    (citem : Option ConsensusCtrlCitem) :
    Agree Replicas (db.processCitem inits voter peerSet citem)
        (db'.processCitem inits' voter peerSet citem) ↔
      ∀ kind version, citem = some (.voteAddModule kind version) →
        (Admits inits db kind ↔ Admits inits' db' kind) := by
  have hassert : (Outcome.assertThat (peerSet.contains voter = true)
      "assertion failed: peer_set.contains(&peer_pubkey)" :
        Outcome String Unit) = .ok () := if_pos hvoter
  unfold processCitem
  rw [hassert]
  cases citem with
  | none => exact iff_of_true trivial fun _ _ heq => by cases heq
  | some vote =>
      cases vote with
      | voteAddPeer peer =>
          exact iff_of_true (processCitemVoteAddPeer_agree h peer)
            fun _ _ heq => by cases heq
      | voteRemovePeer peer =>
          exact iff_of_true (processCitemVoteRemovePeer_agree h peer)
            fun _ _ heq => by cases heq
      | voteAddModule kind version =>
          refine (processCitemVoteAddModule_agree h hvoter).trans ⟨?_, ?_⟩
          · intro hsame _ _ heq
            cases heq
            exact hsame
          · intro hsame
            exact hsame kind version rfl
      | voteModuleVersion id minor =>
          exact iff_of_true (processCitemVoteModuleVersion_agree h id minor)
            fun _ _ heq => by cases heq

end CtrlDb

namespace CtrlModule

/-- A node's own tables take no part in what is agreed on. -/
theorem processCitem_agree {m m' : CtrlModule} {voter : PeerPubkey}
    {peerSet : PeerSet} {citem : Option ConsensusCtrlCitem} :
    Agree (fun n n' => CtrlDb.Replicas n.db n'.db)
        (m.processCitem voter peerSet citem)
        (m'.processCitem voter peerSet citem) ↔
      Agree CtrlDb.Replicas
        (m.db.processCitem m.modulesInits voter peerSet citem)
        (m'.db.processCitem m'.modulesInits voter peerSet citem) := by
  unfold processCitem
  cases m.db.processCitem m.modulesInits voter peerSet citem with
  | error e =>
      cases m'.db.processCitem m'.modulesInits voter peerSet citem with
      | error e' => exact Iff.rfl
      | ok res' => exact Iff.rfl
  | ok res =>
      cases m'.db.processCitem m'.modulesInits voter peerSet citem with
      | error e' => exact Iff.rfl
      | ok res' => exact Iff.rfl

/-- Two nodes with the same replicated tables make the same of a citem from a
peer, exactly when they would both admit the module it asks for, or both not. -/
theorem replicas_agree_iff {m m' : CtrlModule}
    (hdb : CtrlDb.Replicas m.db m'.db) {voter : PeerPubkey} {peerSet : PeerSet}
    (hvoter : peerSet.contains voter = true)
    (citem : Option ConsensusCtrlCitem) :
    Agree (fun n n' => CtrlDb.Replicas n.db n'.db)
        (m.processCitem voter peerSet citem)
        (m'.processCitem voter peerSet citem) ↔
      ∀ kind version, citem = some (.voteAddModule kind version) →
        (CtrlDb.Admits m.modulesInits m.db kind ↔
          CtrlDb.Admits m'.modulesInits m'.db kind) :=
  processCitem_agree.trans (CtrlDb.processCitem_agree_iff hdb hvoter citem)

/-! ## Two builds -/

section Builds

/-- A node of a federation of three peers, right after the start. -/
def newNode (inits : ModulesInits) (key : Option PeerPubkey) : CtrlModule where
  toPendingVotes := .empty
  db := CtrlDb.empty.bootstrapConsensus ModuleId.consensusCtrl ⟨0, 0⟩
    ⟨[10, 11, 12]⟩
  peerPubkey := key
  proposeCitems := []
  modulesInits := inits

/-- The kinds of an old build, and those of one that has the kind 1 as well. -/
def oldBuild : ModulesInits := .ofList [(ModuleKind.consensusCtrl, true)]

def newBuild : ModulesInits :=
  .ofList [(ModuleKind.consensusCtrl, true), (1, true)]

theorem replicas_agree_on_peers :
    Agree (fun n n' => CtrlDb.Replicas n.db n'.db)
      ((newNode newBuild (some 10)).processCitem 10 ⟨[10, 11, 12]⟩
        (some (.voteAddPeer 13)))
      ((newNode oldBuild (some 11)).processCitem 10 ⟨[10, 11, 12]⟩
        (some (.voteAddPeer 13))) := by
  have hvoter : PeerSet.contains ⟨[10, 11, 12]⟩ 10 = true := by decide
  have hdb : CtrlDb.Replicas (newNode newBuild (some 10)).db
    (newNode oldBuild (some 11)).db := ⟨rfl, rfl, rfl, rfl, rfl, rfl⟩
  refine (replicas_agree_iff hdb hvoter _).mpr ?_
  intro kind version heq
  cases heq

/-- A node of the old build throws away the vote that a node of the new build
counts. -/
theorem builds_disagree_on_module :
    ¬ ∀ (m m' : CtrlModule) (voter : PeerPubkey) (peerSet : PeerSet)
        (citem : Option ConsensusCtrlCitem),
      CtrlDb.Replicas m.db m'.db → peerSet.contains voter = true →
      Agree (fun n n' => CtrlDb.Replicas n.db n'.db)
        (m.processCitem voter peerSet citem)
        (m'.processCitem voter peerSet citem) := by
  intro h
  have hagree := h (newNode newBuild (some 10)) (newNode oldBuild (some 11)) 10
    ⟨[10, 11, 12]⟩ (some (.voteAddModule 1 ⟨1, 0⟩)) ⟨rfl, rfl, rfl, rfl, rfl, rfl⟩
    (by decide)
  have hcounted : ∃ res, (newNode newBuild (some 10)).processCitem 10
      ⟨[10, 11, 12]⟩ (some (.voteAddModule 1 ⟨1, 0⟩)) = .ok res := ⟨_, rfl⟩
  obtain ⟨res, hres⟩ := hagree.isOk.mp hcounted
  have hthrown : (newNode oldBuild (some 11)).processCitem 10 ⟨[10, 11, 12]⟩
      (some (.voteAddModule 1 ⟨1, 0⟩)) =
        .error (.err "No module init available for module kind") := rfl
  rw [hthrown] at hres
  cases hres

end Builds

end CtrlModule

end Bfte
