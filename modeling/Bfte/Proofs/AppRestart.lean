import Bfte.Proofs.Resume

/-!
# Starts that leave no trace

A start writes to the tables of the modules before the app takes up its block: it sets
up the modules, each of which writes down the version it is set up at, and it makes the
highest versions that the node supports its pending votes. Whatever is pending goes when
the node's own vote is processed, so a start may bring back what was gone.

Here everything that is stored of the modules is followed: the tables that all nodes
share, the node's own votes, and the versions the modules were last set up at. A crash
leaves no trace if no item succeeds again after it and the start finds these tables as it
would write them. The versions may also differ while an item is still to come, since the
modules are set up again before it.
-/

namespace Bfte

namespace NodeApp

variable {D S M X : Type} (E : Type) [OtherModules M X E] (inits : ModulesInits)

/-! ## Every item once and in order, with all that is stored -/

/-- What else is stored: the node's own votes, and the versions that the modules were
last set up at. -/
@[ext] structure Kept where
  own : OwnVotes
  modulesMap : ModulesConfigs

def kept [LinearOrder D] (n : NodeApp D S M X) : Kept := ⟨n.own, n.modulesMap⟩

/-- One item, with what else is stored. The modules are set up as configured before
each item. -/
def keepItem (b : FinalizedBlock D X) (s : Applied M × Kept) (item : CItem X × ℕ) :
    Applied M × Kept :=
  (applyItem E inits b s.1 item, {
    own := match itemOutcome E inits s.1.1 b item.1 with
      | .ok _ =>
          ownVotesAfter E s.1.1.ctrl.modulesConfigs s.1.1 b.peerPubkey s.2.own item.1
      | .error _ => s.2.own
    modulesMap := s.1.1.ctrl.modulesConfigs })

/-- Every item once and in order, with what else is stored. -/
def keepBlocks (blocks : List (FinalizedBlock D X)) (s : Applied M × Kept) :
    Applied M × Kept :=
  throughBlocks (keepItem E inits) blocks s

section Stored

variable [LinearOrder D] (n : NodeApp D S M X) (b : FinalizedBlock D X)

theorem finishBlock_modules : (n.finishBlock b).modules = n.modules := by
  unfold finishBlock
  split <;> rfl

theorem finishBlock_own : (n.finishBlock b).own = n.own := by
  unfold finishBlock
  split <;> rfl

theorem finishBlock_modulesMap : (n.finishBlock b).modulesMap = n.modulesMap := by
  unfold finishBlock
  split <;> rfl

end Stored

variable {E inits}

theorem keepItems_fst (b : FinalizedBlock D X) (f : ℕ) (s : Applied M × Kept) :
    (throughItems (keepItem E inits) b f s).1 =
      throughItems (applyItem E inits) b f s.1 := by
  unfold throughItems
  generalize b.citems.zipIdx.take f = items
  induction items generalizing s with
  | nil => rfl
  | cons item items ih => exact ih _

theorem keepBlocks_fst (blocks : List (FinalizedBlock D X)) (s : Applied M × Kept) :
    (keepBlocks E inits blocks s).1 = applyBlocks E inits blocks s.1 := by
  unfold keepBlocks applyBlocks throughBlocks
  induction blocks generalizing s with
  | nil => rfl
  | cons b blocks ih =>
      rw [List.foldl_cons, List.foldl_cons, ← keepItems_fst]
      exact ih _

theorem keepPart_fst (rest : List (FinalizedBlock D X)) (f : ℕ) (s : Applied M × Kept) :
    (throughPart (keepItem E inits) rest f s).1 =
      throughPart (applyItem E inits) rest f s.1 := by
  cases rest with
  | nil => rfl
  | cons b rest => exact keepItems_fst b f s

theorem length_allItems_cons (b : FinalizedBlock D X) (tail : List (FinalizedBlock D X)) :
    (allItems (b :: tail)).length = b.citems.length + (allItems tail).length := by
  rw [show b :: tail = [b] ++ tail from rfl, allItems_append, List.length_append]
  simp [allItems]

/-- Items of the block at hand are among the items to come. -/
theorem lt_allItems_length {rest : List (FinalizedBlock D X)} {b : FinalizedBlock D X}
    {k : ℕ} (hhead : rest.head? = some b)
    (hk : k < b.citems.length) : k < (allItems rest).length := by
  obtain ⟨tail, rfl⟩ := List.head?_eq_some_iff.mp hhead
  rw [length_allItems_cons]
  exact Nat.lt_add_right _ hk

/-! ## What a start would write -/

variable [LinearOrder D]

/-- An item is still to come, in the block at hand or in a later one. -/
def Awaits (blocks : List (FinalizedBlock D X)) (n : NodeApp D S M X) : Prop :=
  match n.block with
  | some (b, k) => k < b.citems.length ∨
      ∃ b' ∈ blocks, b.header.round < b'.header.round ∧ 0 < b'.citems.length
  | none => ∃ b' ∈ blocks, n.curRoundIdx.1 ≤ b'.header.round ∧ 0 < b'.citems.length

instance (blocks : List (FinalizedBlock D X)) (n : NodeApp D S M X) :
    Decidable (Awaits blocks n) := by
  unfold Awaits
  split <;> infer_instance

/-- A crash after which the loop goes through no item again that succeeds, and the start
finds nothing to write. -/
def SilentRestart (E : Type) [OtherModules M X E] (inits : ModulesInits)
    (blocks : List (FinalizedBlock D X)) (n : NodeApp D S M X) : AppOp D S → Prop
  | .restart => (∀ bk ∈ n.block, Spent E inits n.modules bk.1 0 bk.2 n.appCurRound.2) ∧
      recordSupportedModulesVersions n.modules.ctrl.modulesConfigs n.own = n.own ∧
      (n.modulesMap = n.modules.ctrl.modulesConfigs ∨ Awaits blocks n)
  | _ => True

instance (blocks : List (FinalizedBlock D X)) (n : NodeApp D S M X) (op : AppOp D S) :
    Decidable (SilentRestart E inits blocks n op) :=
  match op with
  | .restart => inferInstanceAs (Decidable (_ ∧ _))
  | .next => .isTrue trivial
  | .recvVote _ _ => .isTrue trivial
  | .recvNotarized _ => .isTrue trivial
  | .recvFinality _ _ => .isTrue trivial

variable {blocks : List (FinalizedBlock D X)}

/-- The frontier, with what else is stored. The versions are those of the last item
before it, or those that the next item finds anyway; and a loop behind the frontier has
been started again. -/
structure KeptFrontier (E : Type) [OtherModules M X E] (inits : ModulesInits)
    (s : Applied M × Kept) (n : NodeApp D S M X) (done rest : List (FinalizedBlock D X))
    (f : ℕ) : Prop extends Frontier E inits s.1 n done rest f where
  own : n.own =
    (throughPart (keepItem E inits) rest f (keepBlocks E inits done s)).2.own
  modulesMap : n.modulesMap =
      (throughPart (keepItem E inits) rest f (keepBlocks E inits done s)).2.modulesMap ∨
    (n.modulesMap = n.modules.ctrl.modulesConfigs ∧ f < (allItems rest).length)
  behind : (n.block.map Prod.snd).getD 0 = f ∨
    n.modulesMap = n.modules.ctrl.modulesConfigs

section Steps

variable {s : Applied M × Kept} {n n' : NodeApp D S M X}
  {done rest : List (FinalizedBlock D X)} {f : ℕ} {b : FinalizedBlock D X}

/-- The tables are those that the next item finds. -/
theorem Frontier.keepPart_modules (h : Frontier E inits s.1 n done rest f) :
    (throughPart (keepItem E inits) rest f (keepBlocks E inits done s)).1.1 =
      n.modules := by
  rw [keepPart_fst, keepBlocks_fst, ← h.state]

/-- An item at the frontier changes what is stored as it does when every item is gone
through once. -/
theorem Frontier.keepPart_succ {citem : CItem X} (h : Frontier E inits s.1 n done rest f)
    (hhead : rest.head? = some b) (hcitem : b.citems[f]? = some citem) :
    (throughPart (keepItem E inits) rest (f + 1) (keepBlocks E inits done s)).2 = {
      own := match itemOutcome E inits n.modules b citem with
        | .ok _ => ownVotesAfter E n.modules.ctrl.modulesConfigs n.modules b.peerPubkey
            (throughPart (keepItem E inits) rest f (keepBlocks E inits done s)).2.own citem
        | .error _ =>
            (throughPart (keepItem E inits) rest f (keepBlocks E inits done s)).2.own
      modulesMap := n.modules.ctrl.modulesConfigs } := by
  rw [← h.keepPart_modules, throughPart_of_head hhead, throughPart_of_head hhead,
    throughItems_succ hcitem]
  rfl

/-- The block at hand, and what is stored of the modules, do not change. -/
theorem KeptFrontier.congr (h : KeptFrontier E inits s n done rest f)
    (hn : Frontier E inits s.1 n' done rest f) (hm : n'.modules = n.modules)
    (ho : n'.own = n.own) (hmap : n'.modulesMap = n.modulesMap)
    (hb : n'.block = n.block) : KeptFrontier E inits s n' done rest f where
  toFrontier := hn
  own := by rw [ho]; exact h.own
  modulesMap := by rw [hmap, hm]; exact h.modulesMap
  behind := by rw [hb, hmap, hm]; exact h.behind

theorem KeptFrontier.open (h : KeptFrontier E inits s n done rest f)
    (hb : rest.head? = some b) (hn : n.block = none) :
    KeptFrontier E inits s { n with block := some (b, 0) } done rest f where
  toFrontier := h.toFrontier.open hb hn
  own := h.own
  modulesMap := h.modulesMap
  behind := by
    have hbehind := h.behind
    rw [hn] at hbehind
    exact hbehind

/-- While an item is still to come, the loop is not done with the blocks. -/
theorem KeptFrontier.lt_of_awaits (h : KeptFrontier E inits s n done rest f)
    (hat : (n.block.map Prod.snd).getD 0 = f) (hwait : Awaits (done ++ rest) n) :
    f < (allItems rest).length := by
  -- the blocks that come after the saved round are not done with
  have hrest : ∀ b' ∈ done ++ rest, n.appCurRound.1 ≤ b'.header.round → b' ∈ rest := by
    intro b' hb' hle
    rcases List.mem_append.mp hb' with hold | hnew
    · exact absurd (h.below b' hold) (not_lt.mpr hle)
    · exact hnew
  have hpos : ∀ {l : List (FinalizedBlock D X)} {b' : FinalizedBlock D X}, b' ∈ l →
      0 < b'.citems.length → 0 < (allItems l).length := by
    intro l b' hb' hlen
    refine List.length_pos_of_mem (a := (b', b'.citems[0], 0)) ?_
    refine List.mem_flatMap.mpr ⟨b', hb', List.mem_map_of_mem ?_⟩
    exact List.mem_zipIdx_iff_getElem?.mpr (List.getElem?_eq_getElem hlen)
  unfold Awaits at hwait
  cases hblock : n.block with
  | none =>
      rw [hblock] at hwait hat
      obtain ⟨b', hb', hle, hlen⟩ := hwait
      rw [h.round] at hle
      rw [← hat]
      exact hpos (hrest b' hb' hle) hlen
  | some bk =>
      obtain ⟨b, k⟩ := bk
      rw [hblock] at hwait hat
      obtain ⟨hhead, hkf, _, _⟩ := h.inside b k hblock
      obtain rfl : k = f := hat
      rcases hwait with hlt | ⟨b', hb', hlt, hlen⟩
      · exact lt_allItems_length hhead hlt
      · have hle := h.within b hhead
        obtain ⟨tail, rfl⟩ := List.head?_eq_some_iff.mp hhead
        have hround := h.above b List.mem_cons_self
        have htail : b' ∈ tail := by
          rcases List.mem_cons.mp (hrest b' hb' (hround.trans hlt.le)) with rfl | htail
          · exact absurd hlt (lt_irrefl _)
          · exact htail
        have hmore := hpos htail hlen
        rw [length_allItems_cons]
        omega

/-- A start that finds nothing to write. -/
theorem KeptFrontier.restart (h : KeptFrontier E inits s n done rest f)
    (c : Consensus D S) (hsilent : SilentRestart E inits (done ++ rest) n
      (.restart : AppOp D S)) :
    KeptFrontier E inits s (load c n.modules n.own n.appCurRound n.applied) done rest f := by
  obtain ⟨hharmless, hown, hmap⟩ := hsilent
  refine ⟨h.toFrontier.restart c hharmless, ?_, ?_, Or.inr rfl⟩
  · exact hown.trans h.own
  · by_cases heq : n.modulesMap = n.modules.ctrl.modulesConfigs
    · rcases h.modulesMap with hsame | ⟨_, hlt⟩
      · exact Or.inl (heq.symm.trans hsame)
      · exact Or.inr ⟨rfl, hlt⟩
    · have hat := h.behind.resolve_right heq
      exact Or.inr ⟨rfl, h.lt_of_awaits hat (hmap.resolve_left heq)⟩

variable [Hashing D]

/-- The loop passes an item. -/
theorem KeptFrontier.pass {k : ℕ} {citem : CItem X}
    (h : KeptFrontier E inits s n done rest f) (hblock : n.block = some (b, k))
    (hcitem : b.citems[k]? = some citem) (hturn : Turned E inits n n' b k citem)
    (hc : n'.Coherent) : ∃ f', KeptFrontier E inits s n' done rest f' := by
  obtain ⟨f', hn, hstuck, hpast⟩ := h.toFrontier.pass hblock hcitem hturn hc
  obtain ⟨hhead, hkf, _, _⟩ := h.inside b k hblock
  have hk : k < b.citems.length := (List.getElem?_eq_some_iff.mp hcitem).1
  have hbehind : k = f ∨ n.modulesMap = n.modules.ctrl.modulesConfigs := by
    have hb := h.behind
    rw [hblock] at hb
    exact hb
  cases hturn with
  | skipped hlt hskip =>
      obtain ⟨hk0, hf⟩ := h.toFrontier.of_skipped hblock hlt
      subst hskip
      obtain rfl : f' = f := by rw [hpast rfl]; omega
      have hmap := hbehind.resolve_left (by omega)
      exact ⟨f', hn, h.own, h.modulesMap, Or.inr hmap⟩
  | applied hle hout hpre happlied =>
      obtain rfl := h.toFrontier.eq_of_ok hblock hcitem hle hout
      subst happlied
      obtain rfl : f' = k + 1 := by rw [hpast rfl]; omega
      have hsucc := h.toFrontier.keepPart_succ hhead hcitem
      rw [hout] at hsucc
      refine ⟨k + 1, hn, ?_, Or.inl ?_, Or.inl rfl⟩
      · rw [hsucc, ← h.own]
        rfl
      · rw [hsucc]
        rfl
  | failed hle hout hfailed =>
      subst hfailed
      by_cases hkeq : k = f
      · subst hkeq
        obtain rfl : f' = k + 1 := by rw [hpast rfl]; omega
        have hsucc := h.toFrontier.keepPart_succ hhead hcitem
        obtain ⟨e, he⟩ := hout
        rw [he] at hsucc
        refine ⟨k + 1, hn, ?_, Or.inl ?_, Or.inl rfl⟩
        · rw [hsucc]
          exact h.own
        · rw [hsucc]
          rfl
      · -- an item gone through again, after a start that set up the modules
        obtain rfl : f' = f := by rw [hpast rfl]; omega
        have hmap := hbehind.resolve_left hkeq
        refine ⟨f', hn, h.own, ?_, Or.inr rfl⟩
        have hversions := h.modulesMap
        rw [hmap] at hversions
        exact hversions
  | stuck _ hpanic =>
      subst hpanic
      obtain rfl : f' = f := hstuck hblock
      refine ⟨f', hn, h.own, ?_, Or.inr rfl⟩
      rcases hbehind with rfl | hmap
      · exact Or.inr ⟨rfl, lt_allItems_length hhead hk⟩
      · have hversions := h.modulesMap
        rw [hmap] at hversions
        exact hversions

omit [Hashing D] in
/-- The loop has passed all items of a block. -/
theorem KeptFrontier.finish {k : ℕ} (h : KeptFrontier E inits s n done rest f)
    (hsorted : (done ++ rest).Pairwise fun b b' => b.header.round < b'.header.round)
    (hblock : n.block = some (b, k)) (hcitem : b.citems[k]? = none) :
    ∃ done' rest' f', done' ++ rest' = done ++ rest ∧
      KeptFrontier E inits s (n.finishBlock b) done' rest' f' := by
  rcases h.toFrontier.finish hsorted hblock hcitem with
    heq | ⟨tail, rfl, rfl, hnone, hn⟩
  · rw [heq]
    exact ⟨done, rest, f, rfl, h⟩
  · refine ⟨done ++ [b], tail, 0, by simp, hn, ?_, ?_, ?_⟩
    · rw [throughPart_zero, keepBlocks, throughBlocks_concat, finishBlock_own]
      exact h.own
    · rw [throughPart_zero, keepBlocks, throughBlocks_concat, finishBlock_modulesMap,
        finishBlock_modules]
      refine h.modulesMap.imp id fun ⟨heq, hlt⟩ => ⟨heq, ?_⟩
      rw [length_allItems_cons] at hlt
      omega
    · rw [hnone]
      exact Or.inl rfl

end Steps

/-! ## Whole runs -/

section Runs

variable {s : Applied M × Kept} {n : NodeApp D S M X}

/-- The blocks up to some item have been gone through, and stored as they should be. -/
def KeptReached (E : Type) [OtherModules M X E] (inits : ModulesInits)
    (blocks : List (FinalizedBlock D X)) (s : Applied M × Kept) (n : NodeApp D S M X) :
    Prop :=
  ∃ done rest f, done ++ rest = blocks ∧ KeptFrontier E inits s n done rest f

/-- What is stored after the first start. -/
def firstStart (m : Modules M) (own : OwnVotes) : Applied M × Kept :=
  ((m, []), {
    own := recordSupportedModulesVersions m.ctrl.modulesConfigs own
    modulesMap := m.ctrl.modulesConfigs })

theorem load_keptReached (c : Consensus D S) (m : Modules M) (own : OwnVotes) :
    KeptReached E inits blocks (firstStart m own) (load c m own (0, 0) []) := by
  refine ⟨[], blocks, 0, rfl, load_frontier c m own, ?_, Or.inl ?_, Or.inl rfl⟩
  · rw [throughPart_zero]
    rfl
  · rw [throughPart_zero]
    rfl

/-- A node that has gone through the blocks has stored what every item leaves when it is
gone through once. -/
theorem KeptReached.gone (h : KeptReached E inits blocks s n)
    (hgone : GoneThrough blocks n) :
    ((n.modules, n.applied), n.kept) = keepBlocks E inits blocks s := by
  obtain ⟨done, rest, f, rfl, hn⟩ := h
  obtain rfl := hn.toFrontier.rest_eq_nil hgone
  rw [List.append_nil]
  have hown : n.kept.own = (keepBlocks E inits done s).2.own := hn.own
  have hmap : n.kept.modulesMap = (keepBlocks E inits done s).2.modulesMap := by
    rcases hn.modulesMap with hsame | ⟨_, hlt⟩
    · exact hsame
    · exact absurd hlt (Nat.not_lt_zero _)
  refine Prod.ext ?_ (Kept.ext hown hmap)
  rw [keepBlocks_fst]
  exact hn.state

variable [Hashing D]

theorem next_keptReached
    (hsorted : blocks.Pairwise fun b b' => b.header.round < b'.header.round)
    (h : KeptReached E inits blocks s n) :
    KeptReached E inits blocks s (n.next E inits blocks) := by
  obtain ⟨done, rest, f, rfl, hn⟩ := h
  unfold next
  cases hblock : n.block with
  | none =>
      dsimp only
      rw [hn.toFrontier.find?]
      cases hhead : rest.head? with
      | none => exact ⟨done, rest, f, rfl, hn⟩
      | some b => exact ⟨done, rest, f, rfl, hn.open hhead hblock⟩
  | some bk =>
      obtain ⟨b, k⟩ := bk
      dsimp only
      cases hcitem : b.citems[k]? with
      | none => exact hn.finish hsorted hblock hcitem
      | some citem =>
          obtain ⟨hturn, hc⟩ := turn_spec (E := E) inits b k citem hn.coherent
          obtain ⟨f', h'⟩ := hn.pass hblock hcitem hturn hc
          exact ⟨done, rest, f', rfl, h'⟩

variable [DecidableEq S] [Signing D S]

theorem step_keptReached
    (hsorted : blocks.Pairwise fun b b' => b.header.round < b'.header.round)
    {op : AppOp D S} (h : KeptReached E inits blocks s n)
    (hop : SilentRestart E inits blocks n op) :
    KeptReached E inits blocks s (step E inits blocks n op) := by
  cases op with
  | next => exact next_keptReached hsorted h
  | restart =>
      obtain ⟨done, rest, f, rfl, hn⟩ := h
      exact ⟨done, rest, f, rfl, hn.restart _ hop⟩
  | recvVote i resp =>
      obtain ⟨done, rest, f, heq, hn⟩ := h
      exact ⟨done, rest, f, heq, hn.congr (hn.toFrontier.consensus _) rfl rfl rfl rfl⟩
  | recvNotarized resp =>
      obtain ⟨done, rest, f, heq, hn⟩ := h
      exact ⟨done, rest, f, heq, hn.congr (hn.toFrontier.consensus _) rfl rfl rfl rfl⟩
  | recvFinality k resp =>
      obtain ⟨done, rest, f, heq, hn⟩ := h
      exact ⟨done, rest, f, heq, hn.congr (hn.toFrontier.consensus _) rfl rfl rfl rfl⟩

theorem run_keptReached
    (hsorted : blocks.Pairwise fun b b' => b.header.round < b'.header.round)
    {c : Consensus D S} {m : Modules M} {own : OwnVotes} {ops : List (AppOp D S)}
    (hops : Trail.Guarded (step E inits blocks) (SilentRestart E inits blocks)
      (load c m own (0, 0) []) ops) :
    KeptReached E inits blocks (firstStart m own)
      (run E inits blocks (load c m own (0, 0) []) ops) :=
  hops.invariant (I := KeptReached E inits blocks (firstStart m own))
    (fun _ _ h hop => step_keptReached hsorted h hop) (load_keptReached c m own)

/-- Crashes after which no item succeeds again, and the start finds nothing to write,
leave the tables of the modules as they would be without a crash: every item is applied
once and in order. -/
theorem applied_once_of_silentRestarts
    (hsorted : blocks.Pairwise fun b b' => b.header.round < b'.header.round)
    (c : Consensus D S) (m : Modules M) (own : OwnVotes) (ops ops' : List (AppOp D S))
    (hops : Trail.Guarded (step E inits blocks) (SilentRestart E inits blocks)
      (load c m own (0, 0) []) ops) (hops' : .restart ∉ ops')
    (hgone : GoneThrough blocks (run E inits blocks (load c m own (0, 0) []) ops))
    (hgone' : GoneThrough blocks (run E inits blocks (load c m own (0, 0) []) ops')) :
    (run E inits blocks (load c m own (0, 0) []) ops).modules =
      (run E inits blocks (load c m own (0, 0) []) ops').modules ∧
    (run E inits blocks (load c m own (0, 0) []) ops).kept =
      (run E inits blocks (load c m own (0, 0) []) ops').kept ∧
    (run E inits blocks (load c m own (0, 0) []) ops).applied =
      (run E inits blocks (load c m own (0, 0) []) ops').applied ∧
    (((run E inits blocks (load c m own (0, 0) []) ops).modules,
        (run E inits blocks (load c m own (0, 0) []) ops).applied),
      (run E inits blocks (load c m own (0, 0) []) ops).kept) =
        keepBlocks E inits blocks (firstStart m own) := by
  have hsilent : Trail.Guarded (step E inits blocks) (SilentRestart E inits blocks)
      (load c m own (0, 0) []) ops' := by
    refine .of_forall fun op hop n => ?_
    cases op with
    | restart => exact absurd hop hops'
    | next | recvVote | recvNotarized | recvFinality => trivial
  have heq := (run_keptReached hsorted hops).gone hgone
  have heq' := (run_keptReached hsorted hsilent).gone hgone'
  have hboth := heq.trans heq'.symm
  exact ⟨congrArg (fun s => s.1.1) hboth, congrArg Prod.snd hboth,
    congrArg (fun s => s.1.2) hboth, heq⟩

end Runs

/-! ## Votes on removing a peer and adding it again -/

/-- A crash between two items, the first of which failed. -/
theorem applied_once_after_failed_vote :
    let blocks := [voteBlock 0 11 [.voteRemovePeer 99, .voteRemovePeer 11]]
    ∃ n : VoteApp, voteApp = .ok n ∧
      (run Empty .empty blocks n (nexts 2 ++ .restart :: nexts 4)).modules =
        (run Empty .empty blocks n (nexts 4)).modules ∧
      (run Empty .empty blocks n (nexts 2 ++ .restart :: nexts 4)).kept =
        (run Empty .empty blocks n (nexts 4)).kept ∧
      (run Empty .empty blocks n (nexts 2 ++ .restart :: nexts 4)).applied =
        (run Empty .empty blocks n (nexts 4)).applied := by
  intro blocks
  have hrun : voteApp.Returns fun n =>
      Trail.Guarded (step Empty .empty blocks) (SilentRestart Empty .empty blocks) n
        (nexts 2 ++ .restart :: nexts 4) ∧
      GoneThrough blocks (run Empty .empty blocks n (nexts 2 ++ .restart :: nexts 4)) ∧
      GoneThrough blocks (run Empty .empty blocks n (nexts 4)) := by decide +kernel
  obtain ⟨n, hn, hops, hgone, hgone'⟩ := Outcome.returns_iff.mp hrun
  obtain ⟨c, m, own, rfl⟩ := voteApp_eq_load hn
  have h := applied_once_of_silentRestarts (by simp [blocks]) c m own _ (nexts 4) hops
    (by simp [nexts]) hgone hgone'
  exact ⟨_, hn, h.1, h.2.1, h.2.2.1⟩

/-- A crash after the second vote makes the first one count again. -/
theorem crash_applies_votes_again :
    ¬ ∀ (n : VoteApp) (ops ops' : List (AppOp ListDigest PlainSig)),
      voteApp = .ok n → .restart ∉ ops' →
      GoneThrough twiceVoteBlocks (run Empty .empty twiceVoteBlocks n ops) →
      GoneThrough twiceVoteBlocks (run Empty .empty twiceVoteBlocks n ops') →
      (run Empty .empty twiceVoteBlocks n ops).modules =
        (run Empty .empty twiceVoteBlocks n ops').modules := by
  intro h
  have hrun : voteApp.Returns fun n =>
      GoneThrough twiceVoteBlocks
        (run Empty .empty twiceVoteBlocks n (nexts 6 ++ .restart :: nexts 4)) ∧
      GoneThrough twiceVoteBlocks (run Empty .empty twiceVoteBlocks n (nexts 7)) ∧
      (run Empty .empty twiceVoteBlocks n
        (nexts 6 ++ .restart :: nexts 4)).modules.ctrl.removePeerVotes.get? 10 ≠
      (run Empty .empty twiceVoteBlocks n
        (nexts 7)).modules.ctrl.removePeerVotes.get? 10 := by decide +kernel
  obtain ⟨n, hn, hgone, hgone', hne⟩ := Outcome.returns_iff.mp hrun
  have heq := h n _ (nexts 7) hn (by simp [nexts]) hgone hgone'
  exact hne (congrArg (fun m => m.ctrl.removePeerVotes.get? 10) heq)

end NodeApp

end Bfte
