import Bfte.Proofs.AppReplicas
import Bfte.Proofs.ApplyAhead

/-!
# All nodes use the same params

New params are scheduled when the app of a node comes to the item that decides on them,
and the apps of two nodes come to it at different times. The one schedule may therefore
hold more than the other. What makes up for that is the delay: params that a node does not
know of yet apply later than it may need them. Up to the delay beyond the round its app is
in, a node has the same params as every node that is ahead of it.

New params also commit to a block below half of the round they are asked for in. They can
only be the same if the nodes have the same block there, so the runs are held to have
notarized there what has been handed to the app.
-/

namespace Bfte

open Consensus

namespace NodeApp

variable {D S M X : Type} [LinearOrder D] [Hashing D]

/-! ## Where the app is -/

/-- The last block below a round. -/
def lastBelow (blocks : List (FinalizedBlock D X)) (r : BlockRound) :
    Option (FinalizedBlock D X) :=
  (blocks.filter fun b => decide (b.header.round < r)).getLast?

/-- The round the app is in when it takes up the block of round `r`. -/
def startRound (blocks : List (FinalizedBlock D X)) (r : BlockRound) : BlockRound :=
  match lastBelow blocks r with
  | some b => b.header.round + 1
  | none => 0

/-- The block below half of the round, as params commit to it. -/
def midBlock (blocks : List (FinalizedBlock D X)) (r : BlockRound) :
    Option (BlockRound × D) :=
  (lastBelow blocks (BlockRound.half r)).map fun b =>
    (b.header.round, Hashing.blockHash b.header)

variable {blocks : List (FinalizedBlock D X)} {r : BlockRound}

omit [LinearOrder D] [Hashing D] in
theorem lastBelow_mem {b : FinalizedBlock D X} (h : lastBelow blocks r = some b) :
    b ∈ blocks ∧ b.header.round < r := by
  have hmem := List.mem_filter.mp (List.mem_of_getLast? h)
  exact ⟨hmem.1, of_decide_eq_true hmem.2⟩

omit [LinearOrder D] [Hashing D] in
theorem exists_lastBelow
    (hsorted : blocks.Pairwise fun b b' => b.header.round < b'.header.round)
    {b : FinalizedBlock D X} (hb : b ∈ blocks) (hr : b.header.round < r) :
    ∃ b', lastBelow blocks r = some b' ∧ b.header.round ≤ b'.header.round := by
  have hmem : b ∈ blocks.filter fun b => decide (b.header.round < r) :=
    List.mem_filter.mpr ⟨hb, decide_eq_true hr⟩
  have hbelow := hsorted.sublist (List.filter_sublist (p := fun b : FinalizedBlock D X =>
    decide (b.header.round < r)))
  unfold lastBelow
  generalize blocks.filter (fun b => decide (b.header.round < r)) = below at hmem hbelow
  induction below using List.reverseRecOn with
  | nil => cases hmem
  | append_singleton init last _ =>
      refine ⟨last, List.getLast?_concat, ?_⟩
      rcases List.mem_append.mp hmem with hinit | hlast
      · exact le_of_lt ((List.pairwise_append.mp hbelow).2.2 b hinit last
          (List.mem_singleton_self last))
      · rw [List.mem_singleton.mp hlast]

omit [LinearOrder D] [Hashing D] in
/-- Whatever round after a block the app is in, it takes up no later block earlier. -/
theorem lt_startRound
    (hsorted : blocks.Pairwise fun b b' => b.header.round < b'.header.round)
    {b : FinalizedBlock D X} (hb : b ∈ blocks) (hr : b.header.round < r) :
    b.header.round < startRound blocks r := by
  obtain ⟨b', hlast, hle⟩ := exists_lastBelow hsorted hb hr
  unfold startRound
  rw [hlast]
  exact Nat.lt_succ_of_le hle

omit [LinearOrder D] [Hashing D] in
theorem startRound_eq
    (hsorted : blocks.Pairwise fun b b' => b.header.round < b'.header.round)
    {pos : BlockRound} (hpos : pos = 0 ∨ ∃ b ∈ blocks, pos = b.header.round + 1)
    (hle : pos ≤ r) (hnone : ∀ b ∈ blocks, b.header.round < r → b.header.round < pos) :
    startRound blocks r = pos := by
  refine le_antisymm ?_ ?_
  · unfold startRound
    cases hlast : lastBelow blocks r with
    | none => exact Nat.zero_le _
    | some b =>
        obtain ⟨hb, hr⟩ := lastBelow_mem hlast
        exact hnone b hb hr
  · rcases hpos with rfl | ⟨b, hb, rfl⟩
    · exact Nat.zero_le _
    · exact lt_startRound hsorted hb hle

/-- The app is in the round after a block it has been through, or in the first, and at the
next block. -/
structure Placed (blocks : List (FinalizedBlock D X)) (n : NodeApp D S M X) : Prop
    extends OrderInv n where
  start : n.curRoundIdx.1 = 0 ∨ ∃ b ∈ blocks, n.curRoundIdx.1 = b.header.round + 1
  first : ∀ bk ∈ n.block, bk.1 ∈ blocks ∧ ∀ b ∈ blocks,
    n.curRoundIdx.1 ≤ b.header.round → bk.1.header.round ≤ b.header.round

theorem Placed.startRound_eq {n : NodeApp D S M X} (h : Placed blocks n)
    (hsorted : blocks.Pairwise fun b b' => b.header.round < b'.header.round)
    {b : FinalizedBlock D X} {k : ℕ} (hb : n.block = some (b, k)) :
    startRound blocks b.header.round = n.curRoundIdx.1 := by
  refine NodeApp.startRound_eq hsorted h.start (h.block (b, k) hb) fun b' hb' hlt => ?_
  by_contra hge
  exact absurd ((h.first (b, k) hb).2 b' hb' (Nat.le_of_not_lt hge)) (not_le.mpr hlt)

/-- What the app passes later on is asked for in no earlier round. -/
theorem Placed.le_startRound {n : NodeApp D S M X} (h : Placed blocks n)
    (hsorted : blocks.Pairwise fun b b' => b.header.round < b'.header.round)
    (hr : n.curRoundIdx.1 ≤ r) : n.curRoundIdx.1 ≤ startRound blocks r := by
  rcases h.start with h0 | ⟨b, hb, heq⟩
  · rw [h0]
    exact Nat.zero_le _
  · rw [heq] at hr ⊢
    exact lt_startRound hsorted hb hr

/-! ## One change -/

/-- What a change does to the schedule, given the block it commits to. -/
def scheduleChange {ε : Type} (round : BlockRound) (t : Timestamp)
    (prevMid : Option (BlockRound × D)) (db : Db D S) (s : PeerSet) :
    Outcome ε (Db D S) := do
  let current ← db.getConsensusParams round
  let new ← current.makeChange round t s prevMid
  return (db.insertConsensusParams new.applyRound new).1

section Changes

variable {ε : Type} {db db' : Db D S} {round : BlockRound} {t : Timestamp}
  {prevMid : Option (BlockRound × D)}

theorem sameParams_insert (h : SameParams db db') (r : BlockRound)
    (new : ConsensusParams D) :
    SameParams (db.insertConsensusParams r new).1 (db'.insertConsensusParams r new).1 := by
  unfold Db.insertConsensusParams
  dsimp only
  rw [h.schedule]
  cases db.consParamsSchedule.get? r with
  | some _ => exact ⟨rfl, h.params⟩
  | none => exact ⟨rfl, congrArg (·.insert (Hashing.paramsHash new) new) h.params⟩

/-- The same changes leave the same schedule. -/
theorem scheduleChanges_alike (h : SameParams db db') (sets : List PeerSet) :
    Outcome.Alike SameParams
      (sets.foldlM (scheduleChange round t prevMid) db : Outcome ε _)
      (sets.foldlM (scheduleChange round t prevMid) db' : Outcome ε _) := by
  induction sets generalizing db db' with
  | nil => exact h
  | cons s sets ih =>
      rw [List.foldlM_cons, List.foldlM_cons]
      refine Outcome.Alike.bind (R := SameParams) ?_ fun _ _ h₁ => ih h₁
      unfold scheduleChange
      rw [h.getConsensusParams]
      refine .after fun cur _ => .after fun new _ => ?_
      exact sameParams_insert h new.applyRound new

/-- The consensus makes the changes that the blocks ask for, if it has the block they
commit to. -/
theorem scheduleChanges_of_corePre {E : Type} {c c' : Consensus D S}
    {effects : List (ModuleCItemEffect E)} (hsame : SameParams db c.db)
    (hprev : ((c.db.getPrevNotarizedBlock (BlockRound.half round)).map fun b =>
      (b.round, Hashing.blockHash b)) = prevMid)
    (h : processConsensusChangeEffectsCorePre round t c effects = (.ok c' : Outcome ε _)) :
    ∃ db', (paramsChanges effects).foldlM (scheduleChange round t prevMid) db =
      (.ok db' : Outcome ε _) ∧ SameParams db' c'.db := by
  rw [corePre_eq] at h
  generalize paramsChanges effects = sets at h ⊢
  induction sets generalizing c db with
  | nil =>
      cases h
      exact ⟨db, rfl, hsame⟩
  | cons s sets ih =>
      rw [List.foldlM_cons, Outcome.bind_eq_ok] at h
      obtain ⟨c₁, hc₁, hrest⟩ := h
      obtain ⟨cur, new, hcur, hnew, _, rfl⟩ := consensusParamsChangeTx_ok hc₁
      rw [hsame.getConsensusParams] at hcur
      rw [hprev] at hnew
      have hstep : scheduleChange round t prevMid db s =
          (.ok (db.insertConsensusParams new.applyRound new).1 : Outcome ε _) := by
        unfold scheduleChange
        rw [Outcome.bind_of_ok hcur, Outcome.bind_of_ok hnew]
        rfl
      rw [List.foldlM_cons, Outcome.bind_of_ok hstep]
      refine ih (sameParams_insert hsame new.applyRound new) ?_ hrest
      have hblocks := insertConsensusParams_sameBlocks c.db new.applyRound new
      unfold Db.getPrevNotarizedBlock at hprev ⊢
      rw [hblocks.notarized]
      exact hprev

/-- Params are stored by their hash, and apply when they are scheduled for. -/
structure ParamsSound (db : Db D S) : Prop where
  hash : ∀ h p, db.consParams.get? h = some p → Hashing.paramsHash p = h
  dated : Dated db

/-- No change asked for in a round concerns the rounds up to the delay after it. -/
theorem scheduleChanges_keep [CollisionFree D] {sets : List PeerSet} (hsound : ParamsSound db)
    {r : BlockRound} (hr : r < round + ConsensusParams.coreApplyDelayBase)
    (h : sets.foldlM (scheduleChange round t prevMid) db = (.ok db' : Outcome ε _)) :
    ParamsSound db' ∧ ∀ p, (db.getConsensusParams r : Outcome Empty _) = .ok p ↔
      (db'.getConsensusParams r : Outcome Empty _) = .ok p := by
  induction sets generalizing db with
  | nil =>
      cases h
      exact ⟨hsound, fun _ => Iff.rfl⟩
  | cons s sets ih =>
      rw [List.foldlM_cons, Outcome.bind_eq_ok] at h
      obtain ⟨db₁, hdb₁, hrest⟩ := h
      simp only [scheduleChange, Outcome.bind_eq_ok, Outcome.pure_eq_ok] at hdb₁
      obtain ⟨cur, _, new, hnew, rfl⟩ := hdb₁
      have happly : r < new.applyRound := by
        have hmade := (makeChange_made hnew).applyRound
        dsimp only at hmade
        rw [hmade]
        lia
      obtain ⟨hsound', hkeep⟩ := ih
        ⟨fun hash p hget => insertConsensusParams_hash hsound.hash hget,
          hsound.dated.insert⟩ hrest
      refine ⟨hsound', fun p => Iff.trans ?_ (hkeep p)⟩
      exact ⟨getConsensusParams_insert hsound.hash happly,
        getConsensusParams_of_insert hsound.hash hsound.dated happly⟩

end Changes

/-! ## One item -/

section Items

variable {E : Type} [OtherModules M X E] {R : M → M → Prop}
  {inits inits' : ModulesInits}

/-- An item, with the changes of params that it asks for. -/
def itemScheduling (E : Type) [OtherModules M X E] (inits : ModulesInits)
    (blocks : List (FinalizedBlock D X)) (s : Modules M × Db D S)
    (a : FinalizedBlock D X × CItem X × ℕ) :
    Outcome ProcessCItemError (Modules M × Db D S) := do
  let (m, effects) ← itemOutcome E inits s.1 a.1 a.2.1
  let round := startRound blocks a.1.header.round
  let db ← (paramsChanges effects).foldlM
    (scheduleChange round a.1.header.timestamp (midBlock blocks round)) s.2
  return (m, db)

/-- The tables of the modules and the schedule after an item that takes effect. -/
def itemScheduled (E : Type) [OtherModules M X E] (inits : ModulesInits)
    (blocks : List (FinalizedBlock D X)) (s : Modules M × Db D S)
    (a : FinalizedBlock D X × CItem X × ℕ) : Option (Modules M × Db D S) :=
  (itemScheduling E inits blocks s a).toOption

/-- Replicas with the same schedule. -/
def SameState (R : M → M → Prop) (s s' : Modules M × Db D S) : Prop :=
  Replicated R s.1 s'.1 ∧ SameParams s.2 s'.2

theorem itemScheduled_alike (hdet : Deterministic E X R) {s s' : Modules M × Db D S}
    (h : SameState R s s') {a : FinalizedBlock D X × CItem X × ℕ}
    (hinits : SameInits E M inits inits' a.2.1) :
    Option.Rel (SameState R) (itemScheduled E inits blocks s a)
      (itemScheduled E inits' blocks s' a) := by
  refine Outcome.Alike.toOption ?_
  refine (itemOutcome_alike hdet h.1 a.1 hinits).bind ?_
  rintro ⟨m, effects⟩ ⟨m', effects'⟩ ⟨hm, rfl⟩
  refine (scheduleChanges_alike h.2 (paramsChanges effects)).bind ?_
  intro db db' hdb
  exact ⟨hm, hdb⟩

theorem itemScheduled_eq_some {s s' : Modules M × Db D S}
    {a : FinalizedBlock D X × CItem X × ℕ} :
    itemScheduled E inits blocks s a = some s' ↔
      ∃ effects, itemOutcome E inits s.1 a.1 a.2.1 = .ok (s'.1, effects) ∧
        (paramsChanges effects).foldlM
          (scheduleChange (startRound blocks a.1.header.round) a.1.header.timestamp
            (midBlock blocks (startRound blocks a.1.header.round))) s.2 =
          (.ok s'.2 : Outcome ProcessCItemError _) := by
  simp only [itemScheduled, Outcome.toOption_eq_some, itemScheduling, Outcome.bind_eq_ok,
    Outcome.pure_eq_ok]
  constructor
  · rintro ⟨⟨m, effects⟩, hout, db, hdb, rfl⟩
    exact ⟨effects, hout, hdb⟩
  · rintro ⟨effects, hout, hdb⟩
    exact ⟨(s'.1, effects), hout, s'.2, hdb, rfl⟩

/-- Items that take effect keep the params of the rounds that no change of theirs can
concern. -/
theorem itemsScheduled_keep [CollisionFree D]
    {log : List (FinalizedBlock D X × CItem X × ℕ)} {s s' : Modules M × Db D S}
    (hsound : ParamsSound s.2)
    (hr : ∀ a ∈ log, r < startRound blocks a.1.header.round +
      ConsensusParams.coreApplyDelayBase)
    (h : log.foldlM (itemScheduled E inits blocks) s = some s') :
    ParamsSound s'.2 ∧ ∀ p, (s.2.getConsensusParams r : Outcome Empty _) = .ok p ↔
      (s'.2.getConsensusParams r : Outcome Empty _) = .ok p := by
  induction log generalizing s with
  | nil =>
      cases h
      exact ⟨hsound, fun _ => Iff.rfl⟩
  | cons a log ih =>
      rw [List.foldlM_cons] at h
      obtain ⟨s₁, hs₁, hrest⟩ := Option.bind_eq_some_iff.mp h
      obtain ⟨effects, _, hdb⟩ := itemScheduled_eq_some.mp hs₁
      obtain ⟨hsound₁, hkeep⟩ :=
        scheduleChanges_keep hsound (hr a List.mem_cons_self) hdb
      obtain ⟨hsound', hkeep'⟩ :=
        ih hsound₁ (fun b hb => hr b (List.mem_cons_of_mem a hb)) hrest
      exact ⟨hsound', fun p => (hkeep p).trans (hkeep' p)⟩

end Items

/-! ## One node -/

section Nodes

variable {E : Type} [OtherModules M X E] {inits : ModulesInits} {n n' : NodeApp D S M X}
  {s : Modules M × Db D S}

/-- Params asked for now commit to a block that the app has been handed. -/
def MidHanded (blocks : List (FinalizedBlock D X)) (n : NodeApp D S M X) : AppOp D S → Prop
  | .next => ∀ bk ∈ n.block,
      ((n.consensus.db.getPrevNotarizedBlock (BlockRound.half n.curRoundIdx.1)).map
        fun b => (b.round, Hashing.blockHash b)) = midBlock blocks n.curRoundIdx.1
  | _ => True

instance MidHanded.decidable (n : NodeApp D S M X) :
    ∀ op : AppOp D S, Decidable (MidHanded blocks n op)
  | .next => inferInstanceAs (Decidable (∀ bk ∈ n.block, _ = _))
  | .restart => .isTrue trivial
  | .recvVote _ _ => .isTrue trivial
  | .recvNotarized _ => .isTrue trivial
  | .recvFinality _ _ => .isTrue trivial

/-- The tables and the schedule are what the items make of them that have taken effect. -/
def Scheduled (E : Type) [OtherModules M X E] (inits : ModulesInits)
    (blocks : List (FinalizedBlock D X)) (s : Modules M × Db D S) (n : NodeApp D S M X) :
    Prop :=
  ∃ (log : List (FinalizedBlock D X × CItem X × ℕ)) (db : Db D S),
    log.map itemPlace = n.applied ∧ (∀ a ∈ log, a ∈ allItems blocks) ∧
    log.foldlM (itemScheduled E inits blocks) s = some (n.modules, db) ∧
    SameParams db n.consensus.db

omit [LinearOrder D] [Hashing D] in
theorem mem_allItems {a : FinalizedBlock D X × CItem X × ℕ} :
    a ∈ allItems blocks ↔ a.1 ∈ blocks ∧ a.1.citems[a.2.2]? = some a.2.1 := by
  unfold allItems
  rw [List.mem_flatMap]
  constructor
  · rintro ⟨b, hb, hitem⟩
    obtain ⟨item, hin, rfl⟩ := List.mem_map.mp hitem
    exact ⟨hb, List.mem_zipIdx_iff_getElem?.mp hin⟩
  · rintro ⟨hb, hitem⟩
    exact ⟨a.1, hb, List.mem_map.mpr ⟨a.2, List.mem_zipIdx_iff_getElem?.mpr hitem, rfl⟩⟩

theorem Scheduled.congr (h : Scheduled E inits blocks s n) (hm : n'.modules = n.modules)
    (ha : n'.applied = n.applied) (hsame : SameParams n.consensus.db n'.consensus.db) :
    Scheduled E inits blocks s n' := by
  obtain ⟨log, db, hlog, hfrom, heffect, hdb⟩ := h
  refine ⟨log, db, ?_, hfrom, ?_, hdb.trans hsame⟩
  · rw [ha]
    exact hlog
  · rw [hm]
    exact heffect

/-- An item takes effect. -/
theorem Scheduled.item {b : FinalizedBlock D X} {k : ℕ} {citem : CItem X} {m : Modules M}
    {effects : List (ModuleCItemEffect E)} {c : Consensus D S}
    (h : Scheduled E inits blocks s n) (hplaced : Placed blocks n)
    (hsorted : blocks.Pairwise fun b b' => b.header.round < b'.header.round)
    (hhanded : MidHanded blocks n (.next : AppOp D S)) (hblock : n.block = some (b, k))
    (hcitem : b.citems[k]? = some citem)
    (hout : itemOutcome E inits n.modules b citem = .ok (m, effects))
    (hpre : processConsensusChangeEffectsCorePre n.curRoundIdx.1 b.header.timestamp
      n.consensus effects = (.ok c : Outcome ProcessCItemError _))
    (hm : n'.modules = m) (ha : n'.applied = n.applied ++ [(b.header.round, k)])
    (hc : n'.consensus = c) : Scheduled E inits blocks s n' := by
  obtain ⟨log, db, hlog, hfrom, heffect, hdb⟩ := h
  have hstart := hplaced.startRound_eq hsorted hblock
  have hmid := hhanded (b, k) hblock
  obtain ⟨db', hdb', hsame⟩ := scheduleChanges_of_corePre hdb hmid hpre
  rw [← hstart] at hdb'
  refine ⟨log ++ [(b, citem, k)], db', ?_, ?_, ?_, ?_⟩
  · rw [List.map_append, hlog, ha]
    rfl
  · intro a ha
    rcases List.mem_append.mp ha with ha | ha
    · exact hfrom a ha
    · rw [List.mem_singleton.mp ha]
      exact mem_allItems.mpr ⟨(hplaced.first (b, k) hblock).1, hcitem⟩
  · have hitem : itemScheduled E inits blocks (n.modules, db) (b, citem, k) =
        some (m, db') := itemScheduled_eq_some.mpr ⟨effects, hout, hdb'⟩
    rw [List.foldlM_append, heffect, hm]
    show List.foldlM _ _ _ = _
    rw [List.foldlM_cons, hitem]
    rfl
  · rw [hc]
    exact hsame

/-- A step that does not change where the app is. -/
theorem Placed.still (h : Placed blocks n) (hinv : OrderInv n')
    (hround : n'.curRoundIdx.1 = n.curRoundIdx.1)
    (hblock : ∀ bk ∈ n'.block, bk.1 ∈ blocks ∧ ∀ b ∈ blocks,
      n.curRoundIdx.1 ≤ b.header.round → bk.1.header.round ≤ b.header.round) :
    Placed blocks n' where
  toOrderInv := hinv
  start := by
    rw [hround]
    exact h.start
  first := by
    rw [hround]
    exact hblock

theorem next_placed (h : Placed blocks n) (hinv : OrderInv (n.next E inits blocks))
    (hsorted : blocks.Pairwise fun b b' => b.header.round < b'.header.round) :
    Placed blocks (n.next E inits blocks) := by
  have hcase := (next_spec E inits blocks h.coherent).1
  generalize n.next E inits blocks = n' at hcase hinv
  cases hcase with
  | idle _ hn =>
      subst hn
      exact h
  | opened b _ hfind hn =>
      subst hn
      refine h.still hinv rfl fun bk hbk => ?_
      cases hbk
      obtain ⟨_, before, after, rfl, hbefore⟩ := List.find?_eq_some_iff_append.mp hfind
      refine ⟨List.mem_append_right _ List.mem_cons_self, fun b' hb' hle => ?_⟩
      rcases List.mem_append.mp hb' with hb' | hb'
      · exact absurd hle (by simpa using hbefore b' hb')
      · rcases List.mem_cons.mp hb' with rfl | hb'
        · exact le_refl _
        · have hafter := (List.pairwise_cons.mp (List.pairwise_append.mp hsorted).2.1).1
          exact le_of_lt (hafter b' hb')
  | finished b k hblock _ hn =>
      subst hn
      refine ⟨hinv, Or.inr ⟨b, (h.first (b, k) hblock).1, rfl⟩, fun bk hbk => ?_⟩
      cases hbk
  | turned b k citem hblock _ hturn =>
      have hstay : ∀ {k'}, ∀ bk ∈ (some (b, k') : Option (FinalizedBlock D X × ℕ)),
          bk.1 ∈ blocks ∧ ∀ b' ∈ blocks, n.curRoundIdx.1 ≤ b'.header.round →
            bk.1.header.round ≤ b'.header.round := by
        rintro k' _ ⟨⟩
        exact h.first (b, k) hblock
      cases hturn with
      | skipped _ hn =>
          subst hn
          exact h.still hinv rfl hstay
      | applied _ _ _ hn =>
          subst hn
          exact h.still hinv rfl hstay
      | failed _ _ hn =>
          subst hn
          exact h.still hinv rfl hstay
      | stuck _ hn =>
          subst hn
          refine h.still hinv rfl fun bk hbk => ?_
          exact h.first bk hbk

theorem next_scheduled (h : Scheduled E inits blocks s n) (hplaced : Placed blocks n)
    (hsorted : blocks.Pairwise fun b b' => b.header.round < b'.header.round)
    (hhanded : MidHanded blocks n (.next : AppOp D S)) :
    Scheduled E inits blocks s (n.next E inits blocks) := by
  have hcase := (next_spec E inits blocks hplaced.coherent).1
  generalize n.next E inits blocks = n' at hcase
  cases hcase with
  | idle _ hn =>
      subst hn
      exact h
  | opened b _ _ hn =>
      subst hn
      exact h.congr rfl rfl (.refl _)
  | finished b k _ _ hn =>
      subst hn
      exact h.congr rfl rfl (.refl _)
  | turned b k citem hblock hcitem hturn =>
      cases hturn with
      | skipped _ hn =>
          subst hn
          exact h.congr rfl rfl (.refl _)
      | applied _ hout hpre hn =>
          subst hn
          exact h.item hplaced hsorted hhanded hblock hcitem hout hpre rfl rfl rfl
      | failed _ _ hn =>
          subst hn
          exact h.congr rfl rfl (.refl _)
      | stuck _ hn =>
          subst hn
          exact h.congr rfl rfl (.refl _)

variable [DecidableEq S] [Signing D S]

/-- What the runs are held to: crashes that make nothing succeed again, and the block that
new params commit to. -/
def Faithful (E : Type) [OtherModules M X E] (inits : ModulesInits)
    (blocks : List (FinalizedBlock D X)) (n : NodeApp D S M X) (op : AppOp D S) : Prop :=
  HarmlessRestart E inits n op ∧ MidHanded blocks n op

instance (n : NodeApp D S M X) (op : AppOp D S) :
    Decidable (Faithful E inits blocks n op) :=
  inferInstanceAs (Decidable (_ ∧ _))

theorem step_scheduled [CollisionFree D]
    (hsorted : blocks.Pairwise fun b b' => b.header.round < b'.header.round)
    {op : AppOp D S} (h : Placed blocks n ∧ Scheduled E inits blocks s n)
    (hhanded : MidHanded blocks n op) :
    Placed blocks (step E inits blocks n op) ∧
      Scheduled E inits blocks s (step E inits blocks n op) := by
  obtain ⟨hplaced, hscheduled⟩ := h
  have hinv : OrderInv (step E inits blocks n op) :=
    (step_ordered op hplaced.toOrderInv).inv
  cases op with
  | next =>
      exact ⟨next_placed hplaced hinv hsorted,
        next_scheduled hscheduled hplaced hsorted hhanded⟩
  | restart =>
      refine ⟨hplaced.still hinv hplaced.saved ?_, hscheduled.congr rfl rfl ?_⟩
      · intro bk hbk
        cases hbk
      · exact step_sameParams _ .reopen hplaced.rounds fun _ _ _ h => by cases h
  | recvVote i resp =>
      refine ⟨hplaced.still hinv rfl hplaced.first, hscheduled.congr rfl rfl ?_⟩
      exact step_sameParams _ (.vote i resp) hplaced.rounds fun _ _ _ h => by cases h
  | recvNotarized resp =>
      refine ⟨hplaced.still hinv rfl hplaced.first, hscheduled.congr rfl rfl ?_⟩
      exact step_sameParams _ (.notarized resp) hplaced.rounds fun _ _ _ h => by cases h
  | recvFinality k resp =>
      refine ⟨hplaced.still hinv rfl hplaced.first, hscheduled.congr rfl rfl ?_⟩
      exact step_sameParams _ (.finality k resp) hplaced.rounds fun _ _ _ h => by cases h

theorem run_scheduled [CollisionFree D] {params : ConsensusParams D}
    {key : Option PeerPubkey} {pinned : Option (BlockRound × D)} {c : Consensus D S}
    (hsorted : blocks.Pairwise fun b b' => b.header.round < b'.header.round)
    (hinit : init params Db.empty key pinned = .ok c) (m : Modules M)
    {own : OwnVotes} {ops : List (AppOp D S)}
    (hops : Trail.Guarded (step E inits blocks) (Faithful E inits blocks)
      (load c m own (0, 0) []) ops) :
    Placed blocks (run E inits blocks (load c m own (0, 0) []) ops) ∧
      Scheduled E inits blocks (m, c.db) (run E inits blocks (load c m own (0, 0) []) ops) := by
  have hstart : Placed blocks (load c m own (0, 0) [] : NodeApp D S M X) :=
    ⟨⟨init_roundInv hinit, init_paramsInv hinit, load_coherent .., rfl,
      fun bk hbk => by cases hbk⟩, Or.inl rfl, fun bk hbk => by cases hbk⟩
  have hnone : Scheduled E inits blocks (m, c.db)
      (load c m own (0, 0) [] : NodeApp D S M X) :=
    ⟨[], c.db, rfl, List.forall_mem_nil _, rfl, .refl _⟩
  exact (hops.mono fun _ _ h => h.2).invariant
    (I := fun n => Placed blocks n ∧ Scheduled E inits blocks (m, c.db) n)
    (fun _ _ h hop => step_scheduled hsorted h hop) ⟨hstart, hnone⟩

end Nodes

/-! ## Two nodes -/

section Pairs

variable {E : Type} [OtherModules M X E] {R : M → M → Prop}
  {inits inits' : ModulesInits} {n n' : NodeApp D S M X} {s s' : Modules M × Db D S}

omit [LinearOrder D] [Hashing D] in
/-- An item is known by its place. -/
theorem item_unique
    (hsorted : blocks.Pairwise fun b b' => b.header.round < b'.header.round)
    {a a' : FinalizedBlock D X × CItem X × ℕ} (ha : a ∈ allItems blocks)
    (ha' : a' ∈ allItems blocks) (hplace : itemPlace a = itemPlace a') : a = a' := by
  obtain ⟨hb, hitem⟩ := mem_allItems.mp ha
  obtain ⟨hb', hitem'⟩ := mem_allItems.mp ha'
  obtain ⟨hround, hidx⟩ := Prod.mk.inj hplace
  have hblock : a.1 = a'.1 := by
    by_contra hne
    have : Std.Symm fun b b' : FinalizedBlock D X => b.header.round ≠ b'.header.round :=
      ⟨fun _ _ h => h.symm⟩
    exact (hsorted.imp fun hlt => ne_of_lt hlt).forall hb hb' hne hround
  rw [← hblock, ← hidx, hitem] at hitem'
  exact Prod.ext hblock (Prod.ext (Option.some.inj hitem') hidx)

omit [LinearOrder D] [Hashing D] in
theorem items_unique
    (hsorted : blocks.Pairwise fun b b' => b.header.round < b'.header.round)
    {log log' : List (FinalizedBlock D X × CItem X × ℕ)}
    (hlog : ∀ a ∈ log, a ∈ allItems blocks) (hlog' : ∀ a ∈ log', a ∈ allItems blocks)
    (hplaces : log.map itemPlace = log'.map itemPlace) : log = log' := by
  induction log generalizing log' with
  | nil => exact (List.map_eq_nil_iff.mp hplaces.symm).symm
  | cons a log ih =>
      cases log' with
      | nil => cases hplaces
      | cons a' log' =>
          obtain ⟨hplace, hrest⟩ := List.cons.inj hplaces
          rw [item_unique hsorted (hlog a List.mem_cons_self) (hlog' a' List.mem_cons_self)
            hplace, ih (fun b hb => hlog b (List.mem_cons_of_mem a hb))
            (fun b hb => hlog' b (List.mem_cons_of_mem a' hb)) hrest]

/-- All items that take effect on both nodes leave them with the same schedule. -/
def SchedulesAlike (E : Type) [OtherModules M X E] (inits inits' : ModulesInits)
    (blocks : List (FinalizedBlock D X)) (s s' : Modules M × Db D S) : Prop :=
  ∀ log : List (FinalizedBlock D X × CItem X × ℕ), (∀ a ∈ log, a ∈ allItems blocks) →
    ∀ t t', log.foldlM (itemScheduled E inits blocks) s = some t →
      log.foldlM (itemScheduled E inits' blocks) s' = some t' → SameParams t.2 t'.2

theorem SchedulesAlike.symm (h : SchedulesAlike E inits inits' blocks s s') :
    SchedulesAlike E inits' inits blocks s' s := by
  intro log hlog t' t ht' ht
  have hsame := h log hlog t t' ht ht'
  exact ⟨hsame.schedule.symm, hsame.params.symm⟩

theorem schedulesAlike_of_deterministic (hdet : Deterministic E X R)
    (hinits : ∀ b ∈ blocks, ∀ citem ∈ b.citems, SameInits E M inits inits' citem)
    (hstart : SameState R s s') : SchedulesAlike E inits inits' blocks s s' := by
  intro log hlog t t' ht ht'
  have hrel : Option.Rel (SameState R) (log.foldlM (itemScheduled E inits blocks) s)
      (log.foldlM (itemScheduled E inits' blocks) s') := by
    refine Replay.rel_foldlM hstart fun a ha t t' hst => ?_
    obtain ⟨hb, hitem⟩ := mem_allItems.mp (hlog a ha)
    exact itemScheduled_alike hdet hst (hinits a.1 hb a.2.1 (List.mem_of_getElem? hitem))
  rw [ht, ht'] at hrel
  cases hrel with
  | some hstate => exact hstate.2

/-- Of two nodes, one has seen take effect what the other has, and items of later blocks
besides. Up to the delay beyond the round that the other one's app is in, both have the
same params. -/
theorem Scheduled.agree_behind [CollisionFree D]
    (hsorted : blocks.Pairwise fun b b' => b.header.round < b'.header.round)
    (halike : SchedulesAlike E inits inits' blocks s s') (hsound : ParamsSound s'.2)
    (hplaced : Placed blocks n) (h : Scheduled E inits blocks s n)
    (h' : Scheduled E inits' blocks s' n') {l : List (BlockRound × ℕ)}
    (happlied : n'.applied = n.applied ++ l)
    (hlater : ∀ place ∈ l, n.curRoundIdx.1 ≤ place.1)
    (hr : r < n.curRoundIdx.1 + ConsensusParams.coreApplyDelayBase)
    (p : ConsensusParams D) :
    (n.consensus.db.getConsensusParams r : Outcome Empty _) = .ok p ↔
      (n'.consensus.db.getConsensusParams r : Outcome Empty _) = .ok p := by
  obtain ⟨log, db, hlog, hfrom, heffect, hdb⟩ := h
  obtain ⟨log', db', hlog', hfrom', heffect', hdb'⟩ := h'
  rw [happlied] at hlog'
  obtain ⟨log₁, more, rfl, hlog₁, hmore⟩ := List.map_eq_append_iff.mp hlog'
  have hsame : log₁ = log := items_unique hsorted
    (fun a ha => hfrom' a (List.mem_append_left _ ha)) hfrom (hlog₁.trans hlog.symm)
  subst hsame
  rw [List.foldlM_append] at heffect'
  obtain ⟨t, ht, hrest⟩ := Option.bind_eq_some_iff.mp heffect'
  have hstate := halike log₁ hfrom _ _ heffect ht
  have hsound₁ := (itemsScheduled_keep (r := 0) hsound
    (fun a _ => Nat.add_pos_right _ (by decide)) ht).1
  have hahead : ∀ a ∈ more, r < startRound blocks a.1.header.round +
      ConsensusParams.coreApplyDelayBase := by
    intro a ha
    have hplace : itemPlace a ∈ l := by
      rw [← hmore]
      exact List.mem_map_of_mem ha
    have hle := hplaced.le_startRound hsorted (hlater _ hplace)
    exact lt_of_lt_of_le hr (Nat.add_le_add_right hle _)
  rw [hdb.getConsensusParams, hdb'.getConsensusParams, ← hstate.getConsensusParams]
  exact (itemsScheduled_keep hsound₁ hahead hrest).2 p

theorem init_paramsSound {params : ConsensusParams D} {key : Option PeerPubkey}
    {pinned : Option (BlockRound × D)} {c : Consensus D S}
    (hinit : init params Db.empty key pinned = .ok c) : ParamsSound c.db where
  hash := (init_paramsInv hinit).hash
  dated := by
    intro r h hget
    rw [(init_sameParams hinit).schedule] at hget
    rw [(init_sameParams hinit).params]
    rw [insertConsensusParams_schedule] at hget
    rcases SortedTable.get?_insert_eq_some hget with ⟨_, rfl⟩ | hold
    · exact Or.inl ⟨params, SortedTable.get?_insert_self _ _ _⟩
    · cases hold

variable [DecidableEq S] [Signing D S]

/-- Two nodes, of whatever builds and with whatever keys, start with the same params and go
through the same blocks, each as far as it has got. In every round up to the delay beyond
the rounds their apps are in, they have the same params. -/
theorem params_agree [CollisionFree D] {params : ConsensusParams D}
    {key key' : Option PeerPubkey} {pinned pinned' : Option (BlockRound × D)}
    {c c' : Consensus D S} {own own' : OwnVotes}
    (hinit : init params Db.empty key pinned = .ok c)
    (hinit' : init params Db.empty key' pinned' = .ok c') {m m' : Modules M}
    (hstart : Replicated R m m')
    (hsorted : blocks.Pairwise fun b b' => b.header.round < b'.header.round)
    (hdet : Deterministic E X R)
    (hinits : ∀ b ∈ blocks, ∀ citem ∈ b.citems, SameInits E M inits inits' citem)
    {ops ops' : List (AppOp D S)}
    (hops : Trail.Guarded (step E inits blocks) (Faithful E inits blocks)
      (load c m own (0, 0) []) ops)
    (hops' : Trail.Guarded (step E inits' blocks) (Faithful E inits' blocks)
      (load c' m' own' (0, 0) []) ops')
    (hr : r < (run E inits blocks (load c m own (0, 0) []) ops).curRoundIdx.1 +
      ConsensusParams.coreApplyDelayBase)
    (hr' : r < (run E inits' blocks (load c' m' own' (0, 0) []) ops').curRoundIdx.1 +
      ConsensusParams.coreApplyDelayBase) (p : ConsensusParams D) :
    ((run E inits blocks (load c m own (0, 0) []) ops).consensus.db.getConsensusParams r :
        Outcome Empty _) = .ok p ↔
      ((run E inits' blocks (load c' m' own' (0, 0) []) ops').consensus.db.getConsensusParams r :
        Outcome Empty _) = .ok p := by
  obtain ⟨hplaced, hscheduled⟩ := run_scheduled hsorted hinit m hops
  obtain ⟨hplaced', hscheduled'⟩ := run_scheduled hsorted hinit' m' hops'
  obtain ⟨k, hk, hdrop⟩ := (run_reached hsorted (hops.mono fun _ _ h => h.1)).exists_eq
  obtain ⟨k', hk', hdrop'⟩ :=
    (run_reached hsorted (hops'.mono fun _ _ h => h.1)).exists_eq
  have hsame : SameParams c.db c'.db := by
    have hdb := init_sameParams hinit
    have hdb' := init_sameParams hinit'
    exact ⟨hdb'.schedule.trans hdb.schedule.symm, hdb'.params.trans hdb.params.symm⟩
  have halike : SchedulesAlike E inits inits' blocks (m, c.db) (m', c'.db) :=
    schedulesAlike_of_deterministic hdet hinits ⟨hstart, hsame⟩
  -- both have noted down the same by any point of the list of all items
  have hnoted : ∀ j, (Replay.replay (itemEffect E inits) itemPlace
      ((allItems blocks).take j) (m, [])).2 =
        (Replay.replay (itemEffect E inits') itemPlace
          ((allItems blocks).take j) (m', [])).2 := by
    intro j
    refine (Replay.Alike.replay (R := Replicated R) (s := (m, [])) (t := (m', []))
      ⟨hstart, rfl⟩ fun a ha t t' ht => ?_).2
    obtain ⟨hb, hitem⟩ := mem_allItems.mp (List.mem_of_mem_take ha)
    exact (itemOutcome_alike hdet ht a.1 (hinits a.1 hb a.2.1
      (List.mem_of_getElem? hitem))).rel fun _ _ h => h.1
  rcases Nat.le_total k k' with hle | hle
  · obtain ⟨l, hl, hfrom⟩ := Replay.noted_later (itemEffect E inits') itemPlace
      (allItems blocks) hle (m', [])
    rw [← hk', ← hnoted, ← hk] at hl
    refine hscheduled.agree_behind hsorted halike (init_paramsSound hinit') hplaced
      hscheduled' hl (fun place hplace => ?_) hr p
    obtain ⟨a, ha, rfl⟩ := hfrom place hplace
    rw [← hplaced.saved]
    exact hdrop a ha
  · obtain ⟨l, hl, hfrom⟩ := Replay.noted_later (itemEffect E inits) itemPlace
      (allItems blocks) hle (m, [])
    rw [← hk, hnoted, ← hk'] at hl
    refine (hscheduled'.agree_behind hsorted halike.symm (init_paramsSound hinit) hplaced'
      hscheduled hl (fun place hplace => ?_) hr' p).symm
    obtain ⟨a, ha, rfl⟩ := hfrom place hplace
    rw [← hplaced'.saved]
    exact hdrop' a ha

end Pairs

/-- A node without a key that crashes is still at the first block, when a peer of another
build has been through the vote that decides: params for round 35 are in the schedule of
the one and not in that of the other, and both have the same params in round 20. -/
theorem params_agree_before_change : ∃ c c' : Consensus ListDigest PlainSig,
    Consensus.init (plainParams [10, 11]) Db.empty none none = .ok c ∧
    Consensus.init (plainParams [10, 11]) Db.empty (some 10) none = .ok c' ∧
    (run Empty .empty moreAddBlocks (load c pairModules (.ctrlOnly none) (0, 0) [])
      (nexts 2 ++ .restart :: nexts 2)).consensus.db.consParamsSchedule.get? 35 = none ∧
    (run Empty CtrlModule.newBuild moreAddBlocks (load c' pairModules (.ctrlOnly (some 10)) (0, 0) [])
      (nexts 7)).consensus.db.consParamsSchedule.get? 35 ≠ none ∧
    ∀ p, ((run Empty .empty moreAddBlocks (load c pairModules (.ctrlOnly none) (0, 0) [])
        (nexts 2 ++ .restart :: nexts 2)).consensus.db.getConsensusParams 20 :
          Outcome Empty _) = .ok p ↔
      ((run Empty CtrlModule.newBuild moreAddBlocks (load c' pairModules (.ctrlOnly (some 10)) (0, 0) [])
        (nexts 7)).consensus.db.getConsensusParams 20 : Outcome Empty _) = .ok p := by
  have hrun : (Consensus.init (plainParams [10, 11]) (Db.empty : Db ListDigest PlainSig)
      none none).Returns fun c =>
        (Consensus.init (plainParams [10, 11]) (Db.empty : Db ListDigest PlainSig)
          (some 10) none).Returns fun c' =>
            Trail.Guarded (step Empty .empty moreAddBlocks)
              (Faithful Empty .empty moreAddBlocks) (load c pairModules (.ctrlOnly none) (0, 0) [])
              (nexts 2 ++ .restart :: nexts 2) ∧
            (run Empty .empty moreAddBlocks (load c pairModules (.ctrlOnly none) (0, 0) [])
              (nexts 2 ++ .restart :: nexts 2)).consensus.db.consParamsSchedule.get? 35 =
                none ∧
            (run Empty CtrlModule.newBuild moreAddBlocks (load c' pairModules (.ctrlOnly (some 10)) (0, 0) [])
              (nexts 7)).consensus.db.consParamsSchedule.get? 35 ≠ none ∧
            Trail.Guarded (step Empty CtrlModule.newBuild moreAddBlocks)
              (Faithful Empty CtrlModule.newBuild moreAddBlocks)
              (load c' pairModules (.ctrlOnly (some 10)) (0, 0) []) (nexts 7) := by
    decide +kernel
  obtain ⟨c, hc, hrun⟩ := Outcome.returns_iff.mp hrun
  obtain ⟨c', hc', hops, hnone, hsome, hops'⟩ := Outcome.returns_iff.mp hrun
  have hagree := params_agree (r := 20) hc hc' ⟨⟨rfl, rfl, rfl, rfl, rfl, rfl⟩, rfl⟩
    (by simp [moreAddBlocks, addBlocks, voteBlock, BlockHeader.build]) deterministic_alone
    moreAddBlocks_sameInits hops hops' (Nat.lt_add_left _ (by decide))
    (Nat.lt_add_left _ (by decide))
  exact ⟨c, c', hc, hc', hnone, hsome, hagree⟩

end NodeApp

end Bfte
