import Mathlib.Data.List.Chain
import Bfte.Proofs.ParamsSchedule

/-!
# The order in which changes of params apply

The apply round of a change is the round the app asked for, plus the number of
peers in effect there, plus a constant. So of two changes the later one applies
later only if the rounds asked for are further apart than the peers in effect
have become fewer. Changes of one block ask for the same round, and nothing that
is scheduled can change who is in effect there: they always apply together.
-/

namespace Bfte

open Consensus

/-- A change of params: the round the app asked for, the params in effect there,
and the params made of them. -/
structure ParamsChange (D : Type) where
  round : BlockRound
  current : ConsensusParams D
  new : ConsensusParams D

namespace ParamsChange

variable {D : Type}

/-- The second change asks for a later round than the first, by more rounds than
there are fewer peers in effect. -/
def Spaced (a b : ParamsChange D) : Prop :=
  a.round < b.round ∧
    a.current.peers.len < b.current.peers.len + (b.round - a.round)

/-- What the code makes of a change. -/
structure Made (x : ParamsChange D) : Prop where
  scheduleRound : x.new.scheduleRound = x.round
  applyRound : x.new.applyRound =
    x.round + (x.current.peers.len + ConsensusParams.coreApplyDelayBase)

/-- The second change is not asked for an earlier round, and where both ask for
the same, the same peers are in effect. -/
def Follows (a b : ParamsChange D) : Prop :=
  a.round ≤ b.round ∧ (a.round = b.round → a.current = b.current)

theorem spaced_iff {a b : ParamsChange D} (ha : a.Made) (hb : b.Made)
    (h : a.Follows b) :
    a.new.applyRound < b.new.applyRound ↔ a.Spaced b := by
  obtain ⟨hle, hsame⟩ := h
  rw [ha.applyRound, hb.applyRound]
  unfold Spaced
  rcases Nat.lt_or_eq_of_le hle with hlt | heq
  · lia
  · rw [hsame heq, heq]
    lia

/-- Over a whole history it is enough to compare each change with the next. -/
theorem pairwise_applyRound_iff {l : List (ParamsChange D)}
    (hmade : ∀ x ∈ l, x.Made) (hfollows : l.Pairwise Follows) :
    (l.map fun x => x.new.applyRound).Pairwise (· < ·) ↔ l.IsChain Spaced := by
  rw [← List.isChain_iff_pairwise, List.isChain_map]
  induction l with
  | nil => simp
  | cons a l ih =>
      obtain ⟨hhead, htail⟩ := List.pairwise_cons.mp hfollows
      have ih := ih (fun x hx => hmade x (List.mem_cons_of_mem a hx)) htail
      cases l with
      | nil => simp
      | cons b l =>
          have hab := spaced_iff (hmade a List.mem_cons_self)
            (hmade b (List.mem_cons_of_mem a List.mem_cons_self))
            (hhead b List.mem_cons_self)
          rw [List.isChain_cons_cons, List.isChain_cons_cons, ih, hab]

end ParamsChange

namespace NodeApp

variable {D S M X : Type} [LinearOrder D] [Hashing D]

/-! ## The changes of a run -/

/-- The changes that are scheduled for some peer sets, one after the other. -/
def scheduleChanges {ε : Type} (round : BlockRound) (t : Timestamp)
    (c : Consensus D S) :
    List PeerSet → Outcome ε (List (ParamsChange D) × Consensus D S)
  | [] => .ok ([], c)
  | s :: sets => do
      let current ← c.db.getConsensusParams round
      let prevMid := c.db.getPrevNotarizedBlock (BlockRound.half round)
      let new ← current.makeChange round t s
        (prevMid.map fun b => (b.round, Hashing.blockHash b))
      let c ← c.consensusParamsChangeTx round t s
      let (changes, c) ← scheduleChanges round t c sets
      return (⟨round, current, new⟩ :: changes, c)

/-- A database with some changes in its schedule. -/
def insertChanges (db : Db D S) (l : List (ParamsChange D)) : Db D S :=
  l.foldl (fun db x => (db.insertConsensusParams x.new.applyRound x.new).1) db

section Runs

variable {E : Type} [OtherModules M X E]

/-- The changes that an item makes, if it is applied. -/
def itemChanges (E : Type) [OtherModules M X E] (inits : ModulesInits)
    (n : NodeApp D S M X) (b : FinalizedBlock D X) (citem : CItem X) :
    List (ParamsChange D) :=
  match (do
    let (_, effects) ← itemOutcome E inits n.modules b citem
    scheduleChanges n.curRoundIdx.1 b.header.timestamp n.consensus
      (paramsChanges effects) : Outcome ProcessCItemError _) with
  | .ok (changes, _) => changes
  | .error _ => []

/-- The changes that a step makes. -/
def opChanges (E : Type) [OtherModules M X E] (inits : ModulesInits)
    (n : NodeApp D S M X) : AppOp D S → List (ParamsChange D)
  | .next =>
      match n.block with
      | none => []
      | some (b, idx) =>
          match b.citems[idx]? with
          | none => []
          | some citem =>
              if n.curRoundIdx.2 ≤ idx then itemChanges E inits n b citem else []
  | _ => []

variable [DecidableEq S] [Signing D S]

/-- The changes made in a run, in order. -/
def changes (E : Type) [OtherModules M X E] (inits : ModulesInits)
    (blocks : List (FinalizedBlock D X)) :
    NodeApp D S M X → List (AppOp D S) → List (ParamsChange D)
  | _, [] => []
  | n, op :: ops =>
      opChanges E inits n op ++ changes E inits blocks (step E inits blocks n op) ops

end Runs

/-! ## One item -/

section Items

variable {c c' : Consensus D S} {round : BlockRound} {t : Timestamp}

omit [LinearOrder D] [Hashing D] in
/-- What one change does. -/
theorem makeChange_made {ε : Type} {cur new : ConsensusParams D} {s : PeerSet}
    {prevMid : Option (BlockRound × D)}
    (h : (cur.makeChange round t s prevMid : Outcome ε _) = .ok new) :
    (ParamsChange.mk round cur new).Made := by
  simp only [ConsensusParams.makeChange, ConsensusParams.schedulingDelay,
    Outcome.bind_eq_ok, ConsensusParams.numPeers_eq_ok, Outcome.pure_eq_ok] at h
  obtain ⟨delay, ⟨num, ⟨_, rfl⟩, rfl⟩, _, _, rfl⟩ := h
  exact ⟨rfl, rfl⟩

/-- The params where a change was asked for are not changed by it. -/
theorem consensusParamsChangeTx_params [CollisionFree D] {ε : Type} {s : PeerSet}
    (hinv : ParamsInv c) {p : ConsensusParams D}
    (hp : (c.db.getConsensusParams round : Outcome Empty _) = .ok p)
    (h : (c.consensusParamsChangeTx round t s : Outcome ε _) = .ok c') :
    ParamsInv c' ∧ (c'.db.getConsensusParams round : Outcome Empty _) = .ok p := by
  obtain ⟨cur, new, hcur, hnew, hlt, rfl⟩ := consensusParamsChangeTx_ok h
  have happly := (makeChange_made hnew).applyRound
  refine ⟨⟨fun h p hget => insertConsensusParams_hash hinv.hash hget, ?_⟩, ?_⟩
  · rw [(insertConsensusParams_sameBlocks c.db _ new).getCurrentRound]
    exact hinv.channel
  · refine getConsensusParams_insert hinv.hash ?_ hp
    show round < new.applyRound
    rw [happly, ConsensusParams.coreApplyDelayBase]
    lia

/-- The consensus after the changes is the one the code computes. -/
theorem scheduleChanges_eq {ε : Type} {sets : List PeerSet}
    {l : List (ParamsChange D)}
    (h : (scheduleChanges round t c sets : Outcome ε _) = .ok (l, c')) :
    sets.foldlM (fun c s => c.consensusParamsChangeTx round t s) c =
      (.ok c' : Outcome ε _) := by
  induction sets generalizing c l with
  | nil =>
      cases h
      rfl
  | cons s sets ih =>
      simp only [scheduleChanges, Outcome.bind_eq_ok, Outcome.pure_eq_ok] at h
      obtain ⟨cur, _, new, _, c₁, hc₁, ⟨l', c₂⟩, hrest, h⟩ := h
      cases h
      rw [List.foldlM_cons, hc₁]
      exact ih hrest

/-- And it computes one whenever the code does. -/
theorem scheduleChanges_ok {ε : Type} {sets : List PeerSet}
    (h : sets.foldlM (fun c s => c.consensusParamsChangeTx round t s) c =
      (.ok c' : Outcome ε _)) :
    ∃ l, (scheduleChanges round t c sets : Outcome ε _) = .ok (l, c') := by
  induction sets generalizing c with
  | nil =>
      cases h
      exact ⟨[], rfl⟩
  | cons s sets ih =>
      rw [List.foldlM_cons, Outcome.bind_eq_ok] at h
      obtain ⟨c₁, hc₁, hrest⟩ := h
      obtain ⟨l, hl⟩ := ih hrest
      obtain ⟨cur, new, hcur, hnew, _, _⟩ := consensusParamsChangeTx_ok hc₁
      refine ⟨⟨round, cur, new⟩ :: l, ?_⟩
      simp only [scheduleChanges, Outcome.bind_eq_ok, Outcome.pure_eq_ok]
      exact ⟨cur, hcur, new, hnew, c₁, hc₁, (l, c'), hl, rfl⟩

theorem scheduleChanges_db {ε : Type} {sets : List PeerSet}
    {l : List (ParamsChange D)}
    (h : (scheduleChanges round t c sets : Outcome ε _) = .ok (l, c')) :
    c'.db = insertChanges c.db l := by
  induction sets generalizing c l with
  | nil =>
      cases h
      rfl
  | cons s sets ih =>
      simp only [scheduleChanges, Outcome.bind_eq_ok, Outcome.pure_eq_ok] at h
      obtain ⟨cur, hcur, new, hnew, c₁, hc₁, ⟨l', c₂⟩, hrest, h⟩ := h
      cases h
      obtain ⟨cur', new', hcur', hnew', _, rfl⟩ := consensusParamsChangeTx_ok hc₁
      rw [hcur] at hcur'
      cases hcur'
      rw [hnew] at hnew'
      cases hnew'
      have hdb := ih hrest
      exact hdb

theorem corePre_sameBlocks {E ε : Type} {effects : List (ModuleCItemEffect E)}
    (h : processConsensusChangeEffectsCorePre round t c effects =
      (.ok c' : Outcome ε _)) : SameBlocks c.db c'.db := by
  rw [corePre_eq] at h
  generalize paramsChanges effects = sets at h
  induction sets generalizing c with
  | nil =>
      cases h
      exact ⟨rfl, rfl, rfl⟩
  | cons s sets ih =>
      rw [List.foldlM_cons, Outcome.bind_eq_ok] at h
      obtain ⟨c₁, hc₁, hrest⟩ := h
      obtain ⟨cur, new, _, _, _, rfl⟩ := consensusParamsChangeTx_ok hc₁
      exact (insertConsensusParams_sameBlocks _ _ _).trans (ih hrest)

/-- The changes of one item ask for the same round and find the same params
there. -/
theorem scheduleChanges_spec [CollisionFree D] {ε : Type} {sets : List PeerSet}
    {l : List (ParamsChange D)} (hinv : ParamsInv c)
    (h : (scheduleChanges round t c sets : Outcome ε _) = .ok (l, c')) :
    ParamsInv c' ∧
      (∀ p, (c.db.getConsensusParams round : Outcome Empty _) = .ok p →
        (c'.db.getConsensusParams round : Outcome Empty _) = .ok p) ∧
      ∀ x ∈ l, x.Made ∧ x.round = round ∧
        (c.db.getConsensusParams round : Outcome Empty _) = .ok x.current := by
  induction sets generalizing c l with
  | nil =>
      cases h
      exact ⟨hinv, fun p hp => hp, fun x hx => by cases hx⟩
  | cons s sets ih =>
      simp only [scheduleChanges, Outcome.bind_eq_ok, Outcome.pure_eq_ok] at h
      obtain ⟨cur, hcur, new, hnew, c₁, hc₁, ⟨l', c₂⟩, hrest, h⟩ := h
      cases h
      have hcur := (Db.getConsensusParams_cast hcur :
        (_ : Outcome Empty _) = .ok _)
      obtain ⟨hinv₁, hcur₁⟩ := consensusParamsChangeTx_params hinv hcur hc₁
      obtain ⟨hinv', hkeep, hall⟩ := ih hinv₁ hrest
      refine ⟨hinv', fun p hp => ?_, fun x hx => ?_⟩
      · rw [hcur] at hp
        cases hp
        exact hkeep cur hcur₁
      · rcases List.mem_cons.mp hx with rfl | hx
        · exact ⟨makeChange_made hnew, rfl, hcur⟩
        · obtain ⟨hmade, hround, hsame⟩ := hall x hx
          rw [hcur₁] at hsame
          cases hsame
          exact ⟨hmade, hround, hcur⟩

end Items

/-! ## One step -/

section Steps

variable {E : Type} [OtherModules M X E] {inits : ModulesInits}
  {blocks : List (FinalizedBlock D X)} {n n' : NodeApp D S M X}

/-- The app is in the round it has saved, and at a block of that round or a later
one. -/
structure OrderInv (n : NodeApp D S M X) : Prop where
  rounds : RoundInv n.consensus.db
  params : ParamsInv n.consensus
  coherent : n.Coherent
  saved : n.appCurRound.1 = n.curRoundIdx.1
  block : ∀ bk ∈ n.block, n.curRoundIdx.1 ≤ bk.1.header.round

/-- How one state of the app follows another, with some changes made: they, and
nothing else, go into the schedule. -/
structure Ordered (n n' : NodeApp D S M X) (l : List (ParamsChange D)) : Prop where
  inv : OrderInv n'
  scheduled : SameParams (insertChanges n.consensus.db l) n'.consensus.db
  round_le : n.curRoundIdx.1 ≤ n'.curRoundIdx.1
  keep : n'.curRoundIdx.1 = n.curRoundIdx.1 → ∀ p,
    (n.consensus.db.getConsensusParams n.curRoundIdx.1 : Outcome Empty _) = .ok p →
    (n'.consensus.db.getConsensusParams n.curRoundIdx.1 : Outcome Empty _) = .ok p
  made : ∀ x ∈ l, x.Made ∧ x.round = n.curRoundIdx.1 ∧
    (n.consensus.db.getConsensusParams n.curRoundIdx.1 : Outcome Empty _) =
      .ok x.current

/-- The changes of an item that is applied are those the consensus schedules. -/
theorem itemChanges_applied {b : FinalizedBlock D X} {citem : CItem X}
    {m : Modules M} {effects : List (ModuleCItemEffect E)} {c : Consensus D S}
    (hout : itemOutcome E inits n.modules b citem = .ok (m, effects))
    (hpre : processConsensusChangeEffectsCorePre n.curRoundIdx.1 b.header.timestamp
      n.consensus effects = (.ok c : Outcome ProcessCItemError _)) :
    (scheduleChanges n.curRoundIdx.1 b.header.timestamp n.consensus
      (paramsChanges effects) : Outcome ProcessCItemError _) =
        .ok (itemChanges E inits n b citem, c) := by
  rw [corePre_eq] at hpre
  obtain ⟨l, hl⟩ := scheduleChanges_ok hpre
  have hall : (do
      let (_, effects) ← itemOutcome E inits n.modules b citem
      scheduleChanges n.curRoundIdx.1 b.header.timestamp n.consensus
        (paramsChanges effects) : Outcome ProcessCItemError _) = .ok (l, c) :=
    Outcome.bind_eq_ok.mpr ⟨_, hout, hl⟩
  unfold itemChanges
  rw [hall]
  exact hl

/-- An item that is not applied makes none. -/
theorem itemChanges_eq_nil {b : FinalizedBlock D X} {citem : CItem X}
    (h : ∀ m effects c,
      itemOutcome E inits n.modules b citem = .ok (m, effects) →
      processConsensusChangeEffectsCorePre n.curRoundIdx.1 b.header.timestamp
        n.consensus effects ≠ (.ok c : Outcome ProcessCItemError _)) :
    itemChanges E inits n b citem = [] := by
  unfold itemChanges
  split
  · next changes c heq =>
      obtain ⟨⟨m, effects⟩, hout, hschedule⟩ := Outcome.bind_eq_ok.mp heq
      refine absurd ?_ (h m effects c hout)
      rw [corePre_eq]
      exact scheduleChanges_eq hschedule
  · rfl

omit [OtherModules M X E] in
/-- A step that leaves the params and the place of the app alone makes no change. -/
theorem OrderInv.frame (h : OrderInv n) (hrounds : RoundInv n'.consensus.db)
    (hparams : ParamsInv n'.consensus) (hsame : SameParams n.consensus.db n'.consensus.db)
    (hcoherent : n'.Coherent) (hround : n'.curRoundIdx.1 = n.curRoundIdx.1)
    (hsaved : n'.appCurRound.1 = n.appCurRound.1)
    (hblock : ∀ bk ∈ n'.block, n.curRoundIdx.1 ≤ bk.1.header.round) :
    Ordered n n' [] where
  inv := by
    refine ⟨hrounds, hparams, hcoherent, ?_, ?_⟩
    · rw [hsaved, hround]
      exact h.saved
    · rw [hround]
      exact hblock
  scheduled := hsame
  round_le := le_of_eq hround.symm
  keep _ p hp := by
    rw [hsame.getConsensusParams]
    exact hp
  made x hx := by cases hx

omit [OtherModules M X E] in
theorem OrderInv.still (h : OrderInv n) (hcons : n'.consensus = n.consensus)
    (hcoherent : n'.Coherent) (hround : n'.curRoundIdx.1 = n.curRoundIdx.1)
    (hsaved : n'.appCurRound.1 = n.appCurRound.1)
    (hblock : ∀ bk ∈ n'.block, n.curRoundIdx.1 ≤ bk.1.header.round) :
    Ordered n n' [] := by
  refine h.frame ?_ ?_ ?_ hcoherent hround hsaved hblock
  · rw [hcons]
    exact h.rounds
  · rw [hcons]
    exact h.params
  · rw [hcons]
    exact .refl _

theorem opChanges_eq_nil
    (h : ∀ b idx, n.block = some (b, idx) → b.citems[idx]? = none) :
    opChanges E inits n (.next : AppOp D S) = [] := by
  unfold opChanges
  cases hblock : n.block with
  | none => rfl
  | some bk =>
      dsimp only
      rw [h bk.1 bk.2 hblock]

theorem opChanges_turned {b : FinalizedBlock D X} {idx : ℕ} {citem : CItem X}
    (hblock : n.block = some (b, idx)) (hcitem : b.citems[idx]? = some citem) :
    opChanges E inits n (.next : AppOp D S) =
      if n.curRoundIdx.2 ≤ idx then itemChanges E inits n b citem else [] := by
  unfold opChanges
  rw [hblock]
  dsimp only
  rw [hcitem]

theorem next_ordered [CollisionFree D] (h : OrderInv n) :
    Ordered n (n.next E inits blocks)
      (opChanges E inits n (.next : AppOp D S)) := by
  obtain ⟨hcase, hc⟩ := next_spec E inits blocks h.coherent
  generalize n.next E inits blocks = n' at hcase hc
  cases hcase with
  | idle hidle hn =>
      rw [opChanges_eq_nil hidle]
      subst hn
      exact h.still rfl hc rfl rfl h.block
  | opened b hnone hfind hn =>
      have hidle : ∀ b idx, n.block = some (b, idx) → b.citems[idx]? = none := by
        intro b idx hb
        rw [hnone] at hb
        cases hb
      rw [opChanges_eq_nil hidle]
      subst hn
      refine h.still rfl hc rfl rfl fun bk hbk => ?_
      cases hbk
      have hle := List.find?_some hfind
      exact of_decide_eq_true hle
  | finished b k hblock hend hn =>
      have hidle : ∀ b idx, n.block = some (b, idx) → b.citems[idx]? = none := by
        intro b idx hb
        rw [hblock] at hb
        cases hb
        exact hend
      have hlt : n.curRoundIdx.1 < b.header.round + 1 :=
        Nat.lt_succ_of_le (h.block (b, k) hblock)
      rw [opChanges_eq_nil hidle]
      subst hn
      refine ⟨⟨h.rounds, h.params, hc, rfl, ?_⟩, .refl _, le_of_lt hlt,
        fun heq => ?_, fun x hx => by cases hx⟩
      · rintro _ ⟨⟩
      · exact absurd heq (ne_of_gt hlt)
  | turned b k citem hblock hcitem hturn =>
      have hle := h.block (b, k) hblock
      have hstay : ∀ bk ∈ (some (b, k + 1) : Option (FinalizedBlock D X × ℕ)),
          n.curRoundIdx.1 ≤ bk.1.header.round := by
        rintro _ ⟨⟩
        exact hle
      rw [opChanges_turned hblock hcitem]
      cases hturn with
      | skipped hlt hn =>
          subst hn
          rw [if_neg (not_le.mpr hlt)]
          exact h.still rfl hc rfl rfl hstay
      | applied hle' hout hpre hn =>
          rw [if_pos hle']
          have hchanges := itemChanges_applied hout hpre
          obtain ⟨hparams, hkeep, hall⟩ := scheduleChanges_spec h.params hchanges
          have hdb := scheduleChanges_db hchanges
          have hround := h.rounds.congr (corePre_sameBlocks hpre)
          subst hn
          refine ⟨⟨hround, hparams, hc, rfl, hstay⟩, ?_, le_refl _,
            fun _ => hkeep, hall⟩
          rw [← hdb]
          exact .refl _
      | failed hle' hout hn =>
          have hnone : itemChanges E inits n b citem = [] :=
            itemChanges_eq_nil fun m effects c hok => by
              obtain ⟨e, he⟩ := hout
              rw [hok] at he
              cases he
          rw [if_pos hle', hnone]
          subst hn
          exact h.still rfl hc rfl h.saved.symm hstay
      | stuck hout hn =>
          rw [itemChanges_eq_nil hout, ite_self]
          subst hn
          exact h.still rfl hc rfl rfl fun bk hbk => by
            rw [hblock] at hbk
            cases hbk
            exact hle

variable [DecidableEq S] [Signing D S]

/-- Messages and restarts make no change. -/
theorem OrderInv.consensus (h : OrderInv n) (op : ConsensusOp D S)
    (hop : ∀ r t s, op ≠ .paramsChange r t s)
    (hcons : n'.consensus = n.consensus.step op) (hcoherent : n'.Coherent)
    (hround : n'.curRoundIdx.1 = n.curRoundIdx.1)
    (hsaved : n'.appCurRound.1 = n.appCurRound.1)
    (hblock : ∀ bk ∈ n'.block, n.curRoundIdx.1 ≤ bk.1.header.round) :
    Ordered n n' [] := by
  refine h.frame ?_ ?_ ?_ hcoherent hround hsaved hblock
  · rw [hcons]
    exact step_roundInv _ _ h.rounds
  · rw [hcons]
    exact step_paramsInv _ _ h.rounds h.params
  · rw [hcons]
    exact step_sameParams _ op h.rounds hop

theorem step_ordered [CollisionFree D] (op : AppOp D S) (h : OrderInv n) :
    Ordered n (step E inits blocks n op) (opChanges E inits n op) := by
  have hc : ∀ {n' : NodeApp D S M X}, n'.modules = n.modules →
      n'.peerSet = n.peerSet → n'.modulesConfigs = n.modulesConfigs →
      n'.modulesMap = n.modulesMap → n'.Coherent := by
    intro n' hm hs hconfigs hmap
    refine ⟨?_, ?_⟩
    · rw [hm, hs]
      exact h.coherent.peerSet
    · rw [hm, hconfigs, hmap]
      exact h.coherent.modulesConfigs
  cases op with
  | next => exact next_ordered h
  | restart =>
      refine h.consensus .reopen (by simp) rfl (load_coherent ..) h.saved rfl ?_
      rintro _ ⟨⟩
  | recvVote i resp =>
      exact h.consensus (.vote i resp) (by simp) rfl (hc rfl rfl rfl rfl) rfl rfl
        h.block
  | recvNotarized resp =>
      exact h.consensus (.notarized resp) (by simp) rfl (hc rfl rfl rfl rfl) rfl rfl
        h.block
  | recvFinality k resp =>
      exact h.consensus (.finality k resp) (by simp) rfl (hc rfl rfl rfl rfl) rfl
        rfl h.block

/-! ## Whole runs -/

/-- The changes of a run follow each other, and what is in effect now. -/
theorem changes_follow [CollisionFree D] (ops : List (AppOp D S)) (h : OrderInv n) :
    (∀ x ∈ changes E inits blocks n ops, x.Made ∧
      n.curRoundIdx.1 ≤ x.round ∧ (x.round = n.curRoundIdx.1 → ∀ p,
        (n.consensus.db.getConsensusParams n.curRoundIdx.1 : Outcome Empty _) =
          .ok p → x.current = p)) ∧
      (changes E inits blocks n ops).Pairwise ParamsChange.Follows := by
  induction ops generalizing n with
  | nil =>
      refine ⟨fun x hx => ?_, List.Pairwise.nil⟩
      cases hx
  | cons op ops ih =>
      have hstep : Ordered n (step E inits blocks n op) (opChanges E inits n op) :=
        step_ordered op h
      obtain ⟨hall, hpairs⟩ := ih hstep.inv
      refine ⟨fun x hx => ?_, List.pairwise_append.mpr ⟨?_, hpairs, ?_⟩⟩
      · rcases List.mem_append.mp hx with hx | hx
        · obtain ⟨hmade, hround, hcur⟩ := hstep.made x hx
          refine ⟨hmade, le_of_eq hround.symm, fun _ p hp => ?_⟩
          rw [hcur] at hp
          exact Except.ok.inj hp
        · obtain ⟨hmade, hle, hcur⟩ := hall x hx
          refine ⟨hmade, hstep.round_le.trans hle, fun heq p hp => ?_⟩
          have hstay := le_antisymm (hle.trans (le_of_eq heq)) hstep.round_le
          refine hcur (heq.trans hstay.symm) p ?_
          rw [hstay]
          exact hstep.keep hstay p hp
      · refine List.pairwise_of_forall_mem_list fun x hx y hy => ?_
        obtain ⟨_, hx, hcurx⟩ := hstep.made x hx
        obtain ⟨_, hy, hcury⟩ := hstep.made y hy
        refine ⟨le_of_eq (hx.trans hy.symm), fun _ => ?_⟩
        rw [hcurx] at hcury
        exact Except.ok.inj hcury
      · intro x hx y hy
        obtain ⟨_, hxround, hcurx⟩ := hstep.made x hx
        obtain ⟨_, hle, hcury⟩ := hall y hy
        refine ⟨(le_of_eq hxround).trans (hstep.round_le.trans hle), fun heq => ?_⟩
        have hstay := le_antisymm (hle.trans (le_of_eq (heq.symm.trans hxround)))
          hstep.round_le
        refine (hcury ?_ _ ?_).symm
        · exact heq.symm.trans (hxround.trans hstay.symm)
        · rw [hstay]
          exact hstep.keep hstay _ hcurx

omit [DecidableEq S] [Signing D S] in
theorem start_orderInv {ε : Type} {params : ConsensusParams D} {k : Option PeerPubkey}
    {pinned : Option (BlockRound × D)} {c : Consensus D S} {rest : M}
    {own : OwnVotes}
    (hinit : init params Db.empty k pinned = .ok c)
    (hstart : (start c rest own : Outcome ε _) = .ok n) : OrderInv n := by
  obtain rfl := start_eq_load hinit hstart
  exact ⟨init_roundInv hinit, init_paramsInv hinit, load_coherent .., rfl, nofun⟩

/-- In every run, the apply rounds increase from change to change if and only if
each change is asked for later than the one before, by more rounds than there are
fewer peers in effect. -/
theorem applyRounds_increase_iff [CollisionFree D] {ε : Type}
    {params : ConsensusParams D} {k : Option PeerPubkey}
    {pinned : Option (BlockRound × D)} {c : Consensus D S} {rest : M}
    {own : OwnVotes}
    (hinit : init params Db.empty k pinned = .ok c)
    (hstart : (start c rest own : Outcome ε _) = .ok n) (ops : List (AppOp D S)) :
    ((changes E inits blocks n ops).map
      fun x => x.new.applyRound).Pairwise (· < ·) ↔
        (changes E inits blocks n ops).IsChain ParamsChange.Spaced := by
  have hinv := start_orderInv hinit hstart
  refine ParamsChange.pairwise_applyRound_iff (fun x hx => ?_) ?_
  · exact ((changes_follow ops hinv).1 x hx).1
  · exact (changes_follow ops hinv).2

end Steps

/-! ## Two changes in one block -/

instance {D : Type} (a b : ParamsChange D) : Decidable (a.Spaced b) :=
  inferInstanceAs (Decidable (_ ∧ _))

/-- Peer 11 is removed in one block and added again in the next. -/
theorem applyRounds_increase_over_blocks :
    let blocks := [voteBlock 0 11 [.voteRemovePeer 11],
      voteBlock 1 10 [.voteRemovePeer 11], voteBlock 2 10 [.voteAddPeer 11]]
    ∃ n : VoteApp, voteApp = .ok n ∧
      (changes Empty .empty blocks n (nexts 9)).length = 2 ∧
      ((changes Empty .empty blocks n (nexts 9)).map
        fun x => x.new.applyRound).Pairwise (· < ·) := by
  intro blocks
  have hrun : voteApp.Returns fun n =>
      (changes Empty .empty blocks n (nexts 9)).length = 2 ∧
      (changes Empty .empty blocks n (nexts 9)).IsChain ParamsChange.Spaced := by
    decide +kernel
  obtain ⟨n, hn, hlen, hspaced⟩ := Outcome.returns_iff.mp hrun
  obtain ⟨c, hinit, hstart⟩ := voteApp_eq_ok.mp hn
  exact ⟨n, hn, hlen, (applyRounds_increase_iff hinit hstart (nexts 9)).mpr hspaced⟩

/-- Removed and added again in one block, both changes apply in the same round. -/
theorem second_change_applies_no_later :
    ¬ ∀ (n : VoteApp) (ops : List (AppOp ListDigest PlainSig)), voteApp = .ok n →
      ((changes Empty .empty twiceVoteBlocks n ops).map
        fun x => x.new.applyRound).Pairwise (· < ·) := by
  intro h
  have hrun : voteApp.Returns fun n =>
      (changes Empty .empty twiceVoteBlocks n (nexts 6)).map
        (fun x => x.new.applyRound) = [35, 35] := by decide +kernel
  obtain ⟨n, hn, heq⟩ := Outcome.returns_iff.mp hrun
  have hpairs := h n (nexts 6) hn
  rw [heq] at hpairs
  exact absurd hpairs (by decide)

end NodeApp

end Bfte
