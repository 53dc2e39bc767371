import Bfte.Core.Concrete
import Bfte.Proofs.Resume

/-!
# The copies of the `consensus-ctrl` tables in memory

The loop of the app keeps the peer set and the modules configs in memory. An item
that succeeds takes the new peer set from its effects and drops the configs if an
effect touches them; an item that fails drops both. What is dropped is read from
the tables before the next item. So each item finds in memory what the tables say,
whatever happened to the items before it, which is what the source asserts in
debug builds.
-/

namespace Bfte

namespace NodeApp

section Coherence

variable {D S M X E : Type} [LinearOrder D] [Hashing D] [OtherModules M X E]
  {inits : ModulesInits} {blocks : List (FinalizedBlock D X)} {n : NodeApp D S M X}

/-- The loop has come to an item that it does not skip. -/
structure StartsItem (n : NodeApp D S M X) (b : FinalizedBlock D X) (idx : ℕ)
    (citem : CItem X) : Prop where
  block : n.block = some (b, idx)
  citem : b.citems[idx]? = some citem
  notBefore : n.curRoundIdx.2 ≤ idx

/-- The next step of a loop that has come to an item reloads the copies that were
dropped, and hands the item to `process_citem` with them. -/
theorem StartsItem.next_eq {b : FinalizedBlock D X} {idx : ℕ} {citem : CItem X}
    (hitem : n.StartsItem b idx citem) (h : n.Coherent) :
    n.next E inits blocks = processCitem E inits n.reloadInvalidatedCopies
      n.modules.ctrl.getPeerSet b idx citem := by
  have hset : n.reloadInvalidatedCopies.peerSet =
      some n.modules.ctrl.getPeerSet := by rw [reload_eq h]
  unfold next
  rw [hitem.block]
  dsimp only
  rw [hitem.citem]
  dsimp only
  unfold turn
  rw [if_pos hitem.notBefore]
  dsimp only
  rw [hset]

omit [Hashing D] in
/-- The consensus takes its messages beside the app and touches none of the
tables the copies are of. -/
theorem Coherent.consensus (h : n.Coherent) (c : Consensus D S) :
    ({ n with consensus := c } : NodeApp D S M X).Coherent :=
  ⟨h.peerSet, h.modulesConfigs⟩

variable [DecidableEq S] [Signing D S]

theorem step_coherent (op : AppOp D S) (h : n.Coherent) :
    (step E inits blocks n op).Coherent := by
  cases op with
  | next => exact (next_spec E inits blocks h).2
  | restart => exact load_coherent ..
  | recvVote i resp => exact h.consensus _
  | recvNotarized resp => exact h.consensus _
  | recvFinality k resp => exact h.consensus _

theorem run_coherent (ops : List (AppOp D S)) (h : n.Coherent) :
    (run E inits blocks n ops).Coherent :=
  Trail.run_invariant (fun _ op hn => step_coherent op hn) h ops

/-- Whenever the loop starts to process an item, after any items that succeeded or
failed anywhere, messages to the consensus and crashes, `process_citem` gets the
peer set, the configs and the modules that the tables say. -/
theorem copies_equal_tables (c : Consensus D S) (m : Modules M) (own : OwnVotes)
    (appCurRound : BlockRound × ℕ) (applied : List (BlockRound × ℕ))
    (ops : List (AppOp D S)) (b : FinalizedBlock D X) (idx : ℕ) (citem : CItem X)
    (hitem : (run E inits blocks (load c m own appCurRound applied) ops).StartsItem
      b idx citem) :
    let n := run E inits blocks (load c m own appCurRound applied) ops
    n.next E inits blocks = processCitem E inits n.reloadInvalidatedCopies
        n.modules.ctrl.getPeerSet b idx citem ∧
      n.reloadInvalidatedCopies = { n with
        peerSet := some n.modules.ctrl.getPeerSet
        modulesConfigs := some n.modules.ctrl.modulesConfigs
        modulesMap := n.modules.ctrl.modulesConfigs } := by
  intro n
  have hn : n.Coherent := run_coherent ops (load_coherent ..)
  exact ⟨hitem.next_eq hn, reload_eq hn⟩

end Coherence

/-- The second item of a block, after the first one failed and both copies were
dropped. -/
theorem copies_equal_tables_after_failure :
    let blocks := [voteBlock 0 11 [.voteRemovePeer 99, .voteRemovePeer 11]]
    ∃ n : VoteApp, voteApp = .ok n ∧ ∃ b citem,
      let n' := run Empty .empty blocks n (nexts 2)
      n'.StartsItem b 1 citem ∧ n'.peerSet = none ∧ n'.modulesConfigs.isNone = true ∧
      n'.next Empty .empty blocks = processCitem Empty .empty
        n'.reloadInvalidatedCopies n'.modules.ctrl.getPeerSet b 1 citem := by
  intro blocks
  have hrun : voteApp.Returns fun n =>
      (run Empty .empty blocks n (nexts 2)).peerSet = none ∧
      (run Empty .empty blocks n (nexts 2)).modulesConfigs.isNone = true ∧
      (run Empty .empty blocks n (nexts 2)).curRoundIdx.2 ≤ 1 ∧
      (run Empty .empty blocks n (nexts 2)).block.map
        (fun bk => (bk.1.citems.length, bk.2)) = some (2, 1) := by decide +kernel
  obtain ⟨n, hn, hset, hconfigs, hidx, hblock⟩ := Outcome.returns_iff.mp hrun
  obtain ⟨⟨b, k⟩, hbk, hk⟩ := Option.map_eq_some_iff.mp hblock
  obtain ⟨hlen, rfl⟩ : b.citems.length = 2 ∧ k = 1 := by simpa using hk
  have hitem : b.citems[1]? = some b.citems[1] := List.getElem?_eq_getElem (by omega)
  have hstarts : (run Empty .empty blocks n (nexts 2)).StartsItem b 1 b.citems[1] :=
    ⟨hbk, hitem, hidx⟩
  obtain ⟨c, m, own, rfl⟩ := voteApp_eq_load hn
  exact ⟨_, hn, b, _, hstarts, hset, hconfigs,
    (copies_equal_tables c m own _ _ (nexts 2) b 1 _ hstarts).1⟩

end NodeApp

end Bfte
