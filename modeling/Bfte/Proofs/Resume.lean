import Bfte.Core.Concrete
import Bfte.Proofs.Citems

/-!
# Crashes of the app

What the items of a list of blocks do when each is taken once and in order is
`applyBlocks`. A node that never crashes ends there. A node that does takes up
its block again, from item 0 if the stored index is 0 and else from item 1,
because the loop sets the index in memory back when it skips an item. What it
goes through again is harmless exactly if none of it succeeds a second time.

The invariant of a run is a frontier: the tables are those after some number of
items of the block at hand, and of the items before the frontier that the loop
has not passed yet, none succeeds on these tables.
-/

namespace Bfte

namespace NodeApp

variable {D S M X : Type} (E : Type) [OtherModules M X E] (inits : ModulesInits)

/-! ## Every item once and in order -/

/-- The tables of the modules, and which items took effect on them. -/
abbrev Applied (M : Type) := Modules M × List (BlockRound × ℕ)

/-- One item: an item that fails does nothing. -/
def applyItem (b : FinalizedBlock D X) (s : Applied M) (item : CItem X × ℕ) :
    Applied M :=
  match itemOutcome E inits s.1 b item.1 with
  | .ok (m, _) => (m, s.2 ++ [(b.header.round, item.2)])
  | .error _ => s

/-- The items in the order they are gone through, each with its block and its index. -/
def allItems (blocks : List (FinalizedBlock D X)) :
    List (FinalizedBlock D X × CItem X × ℕ) :=
  blocks.flatMap fun b => b.citems.zipIdx.map fun item => (b, item)

variable {σ : Type} (g : FinalizedBlock D X → σ → CItem X × ℕ → σ)

/-- The first items of a block. -/
def throughItems (b : FinalizedBlock D X) (f : ℕ) (s : σ) : σ :=
  (b.citems.zipIdx.take f).foldl (g b) s

/-- All items of all blocks. -/
def throughBlocks (blocks : List (FinalizedBlock D X)) (s : σ) : σ :=
  blocks.foldl (fun s b => throughItems g b b.citems.length s) s

/-- The first items of the first of some blocks. -/
def throughPart : List (FinalizedBlock D X) → ℕ → σ → σ
  | [], _, s => s
  | b :: _, f, s => throughItems g b f s

/-- Every item once and in order. -/
def applyBlocks (blocks : List (FinalizedBlock D X)) (s : Applied M) : Applied M :=
  throughBlocks (applyItem E inits) blocks s

variable {E inits} {g}

theorem allItems_append (blocks blocks' : List (FinalizedBlock D X)) :
    allItems (blocks ++ blocks') = allItems blocks ++ allItems blocks' :=
  List.flatMap_append

theorem throughPart_zero (blocks : List (FinalizedBlock D X)) (s : σ) :
    throughPart g blocks 0 s = s := by
  cases blocks <;> rfl

theorem throughPart_of_head {blocks : List (FinalizedBlock D X)} {b : FinalizedBlock D X}
    (hhead : blocks.head? = some b) (f : ℕ) (s : σ) :
    throughPart g blocks f s = throughItems g b f s := by
  obtain ⟨tail, rfl⟩ := List.head?_eq_some_iff.mp hhead
  rfl

theorem throughItems_succ {b : FinalizedBlock D X} {f : ℕ} {citem : CItem X}
    (h : b.citems[f]? = some citem) (s : σ) :
    throughItems g b (f + 1) s = g b (throughItems g b f s) (citem, f) := by
  have hget : b.citems.zipIdx[f]? = some (citem, f) := by
    rw [List.getElem?_zipIdx, h]
    simp
  unfold throughItems
  rw [List.take_add_one, hget, List.foldl_append]
  rfl

theorem throughBlocks_concat (blocks : List (FinalizedBlock D X))
    (b : FinalizedBlock D X) (s : σ) :
    throughBlocks g (blocks ++ [b]) s =
      throughItems g b b.citems.length (throughBlocks g blocks s) := by
  unfold throughBlocks
  rw [List.foldl_append]
  rfl

/-! ## The frontier -/

variable [LinearOrder D]

/-- Of the items from `k` on, those up to the frontier that the loop will not
skip do not succeed on the tables. -/
def Spent (E : Type) [OtherModules M X E] (inits : ModulesInits) (m : Modules M)
    (b : FinalizedBlock D X) (k f idx : ℕ) : Prop :=
  ∀ j < f, k ≤ j → (j = 0 → idx = 0) → ∀ citem ∈ b.citems[j]?,
    (itemOutcome E inits m b citem).WhenOk fun _ => False

instance (m : Modules M) (b : FinalizedBlock D X) (k f idx : ℕ) :
    Decidable (Spent E inits m b k f idx) := by
  unfold Spent
  infer_instance

/-- Where a node is that has gone through the blocks `done` and `f` items of the
block after them. -/
structure Frontier (E : Type) [OtherModules M X E] (inits : ModulesInits)
    (s : Applied M) (n : NodeApp D S M X) (done rest : List (FinalizedBlock D X))
    (f : ℕ) : Prop where
  coherent : n.Coherent
  below : ∀ b ∈ done, b.header.round < n.appCurRound.1
  above : ∀ b ∈ rest, n.appCurRound.1 ≤ b.header.round
  round : n.curRoundIdx.1 = n.appCurRound.1
  state : (n.modules, n.applied) =
    throughPart (applyItem E inits) rest f (applyBlocks E inits done s)
  within : ∀ b ∈ rest.head?, f ≤ b.citems.length
  positive : n.appCurRound.2 ≠ 0 → f ≠ 0
  waiting : n.block = none → n.curRoundIdx.2 = n.appCurRound.2 ∧
    ∀ b ∈ rest.head?, Spent E inits n.modules b 0 f n.appCurRound.2
  inside : ∀ b k, n.block = some (b, k) → rest.head? = some b ∧ k ≤ f ∧
    n.curRoundIdx.2 = (if k = 0 then n.appCurRound.2 else k - 1) ∧
    Spent E inits n.modules b k f n.curRoundIdx.2

section Steps

variable {s : Applied M} {n n' : NodeApp D S M X}
  {done rest : List (FinalizedBlock D X)} {f : ℕ} {b : FinalizedBlock D X}

/-- The block at hand, and the tables of the modules, do not change. -/
theorem Frontier.congr (h : Frontier E inits s n done rest f)
    (hc : n'.Coherent) (hm : n'.modules = n.modules)
    (ha : n'.appCurRound = n.appCurRound) (hl : n'.applied = n.applied)
    (hi : n'.curRoundIdx = n.curRoundIdx) (hb : n'.block = n.block) :
    Frontier E inits s n' done rest f where
  coherent := hc
  below := by rw [ha]; exact h.below
  above := by rw [ha]; exact h.above
  round := by rw [hi, ha]; exact h.round
  state := by rw [hm, hl]; exact h.state
  within := h.within
  positive := by rw [ha]; exact h.positive
  waiting := by rw [hb, hi, ha, hm]; exact h.waiting
  inside := by rw [hb, hi, ha, hm]; exact h.inside

/-- What comes in changes the consensus only. -/
theorem Frontier.consensus (h : Frontier E inits s n done rest f) (c : Consensus D S) :
    Frontier E inits s { n with consensus := c } done rest f :=
  h.congr ⟨h.coherent.peerSet, h.coherent.modulesConfigs⟩ rfl rfl rfl rfl rfl

/-- The next block is the first one not gone through. -/
theorem Frontier.find? (h : Frontier E inits s n done rest f) :
    (done ++ rest).find? (fun b => decide (n.curRoundIdx.1 ≤ b.header.round)) =
      rest.head? := by
  rw [h.round]
  have hdone : done.find? (fun b => decide (n.appCurRound.1 ≤ b.header.round)) =
      none := by
    rw [List.find?_eq_none]
    intro b hb hle
    exact absurd (h.below b hb) (not_lt.mpr (of_decide_eq_true hle))
  rw [List.find?_append, hdone, Option.none_or]
  cases rest with
  | nil => rfl
  | cons b rest =>
      exact List.find?_cons_of_pos (decide_eq_true (h.above b List.mem_cons_self))

/-- The loop takes up the next block. -/
theorem Frontier.open (h : Frontier E inits s n done rest f)
    (hb : rest.head? = some b) (hn : n.block = none) :
    Frontier E inits s { n with block := some (b, 0) } done rest f where
  coherent := ⟨h.coherent.peerSet, h.coherent.modulesConfigs⟩
  below := h.below
  above := h.above
  round := h.round
  state := h.state
  within := h.within
  positive := h.positive
  waiting hnone := by cases hnone
  inside b' k hk := by
    cases hk
    obtain ⟨hidx, hspent⟩ := h.waiting hn
    refine ⟨hb, Nat.zero_le _, hidx, ?_⟩
    rw [show n.curRoundIdx.2 = n.appCurRound.2 from hidx]
    exact hspent b hb

/-- A restart that makes the loop go through no item again that succeeds. -/
theorem Frontier.restart (h : Frontier E inits s n done rest f)
    (c : Consensus D S) (hharmless : ∀ bk ∈ n.block,
      Spent E inits n.modules bk.1 0 bk.2 n.appCurRound.2) :
    Frontier E inits s (load c n.modules n.own n.appCurRound n.applied) done rest f where
  coherent := load_coherent ..
  below := h.below
  above := h.above
  round := rfl
  state := h.state
  within := h.within
  positive := h.positive
  waiting _ := by
    refine ⟨rfl, fun b hb => ?_⟩
    cases hblock : n.block with
    | none => exact (h.waiting hblock).2 b hb
    | some bk =>
        obtain ⟨b', k⟩ := bk
        obtain ⟨hhead, hle, hidx, hspent⟩ := h.inside b' k hblock
        obtain rfl : b' = b := Option.some.inj (hhead.symm.trans hb)
        intro j hj _ hzero
        by_cases hjk : j < k
        · exact hharmless _ hblock j hjk (Nat.zero_le _) hzero
        · refine hspent j hj (Nat.le_of_not_lt hjk) fun hj0 => ?_
          have hk0 : k = 0 := by omega
          rw [hidx, if_pos hk0]
          exact hzero hj0
  inside b k hk := by cases hk

/-- The loop is past item `k`, with the frontier at `f'`. -/
theorem Frontier.past {k f' : ℕ} (h : Frontier E inits s n done rest f)
    (hblock : n.block = some (b, k)) (hc : n'.Coherent)
    (hstate : (n'.modules, n'.applied) =
      throughItems (applyItem E inits) b f' (applyBlocks E inits done s))
    (hround : n'.appCurRound.1 = n.appCurRound.1)
    (hcur : n'.curRoundIdx = (n.curRoundIdx.1, k))
    (hnext : n'.block = some (b, k + 1)) (hkf : k + 1 ≤ f')
    (hlen : f' ≤ b.citems.length) (hspent : Spent E inits n'.modules b (k + 1) f' k) :
    Frontier E inits s n' done rest f' := by
  obtain ⟨hhead, _, _, _⟩ := h.inside b k hblock
  obtain ⟨tail, rfl⟩ := List.head?_eq_some_iff.mp hhead
  refine ⟨hc, ?_, ?_, ?_, hstate, ?_, fun _ => by omega, ?_, ?_⟩
  · rw [hround]
    exact h.below
  · rw [hround]
    exact h.above
  · rw [hround, hcur]
    exact h.round
  · rintro b' ⟨⟩
    exact hlen
  · intro hnone
    rw [hnext] at hnone
    cases hnone
  · intro b' k' hk'
    rw [hnext] at hk'
    cases hk'
    rw [hcur]
    exact ⟨rfl, hkf, rfl, hspent⟩

theorem Frontier.state_of_head (h : Frontier E inits s n done rest f)
    (hhead : rest.head? = some b) : (n.modules, n.applied) =
      throughItems (applyItem E inits) b f (applyBlocks E inits done s) := by
  rw [h.state, throughPart_of_head hhead]

/-- Only the first item is skipped, and only if it has been gone through. -/
theorem Frontier.of_skipped {k : ℕ} (h : Frontier E inits s n done rest f)
    (hblock : n.block = some (b, k)) (hlt : k < n.curRoundIdx.2) : k = 0 ∧ f ≠ 0 := by
  obtain ⟨_, _, hidx, _⟩ := h.inside b k hblock
  have hk0 : k = 0 := by
    by_contra hk0
    rw [hidx, if_neg hk0] at hlt
    omega
  refine ⟨hk0, h.positive fun h0 => ?_⟩
  rw [hidx, if_pos hk0, h0] at hlt
  exact absurd hlt (Nat.not_lt_zero _)

/-- Only the item at the frontier takes effect. -/
theorem Frontier.eq_of_ok {k : ℕ} {citem : CItem X}
    {r : Modules M × List (ModuleCItemEffect E)} (h : Frontier E inits s n done rest f)
    (hblock : n.block = some (b, k)) (hcitem : b.citems[k]? = some citem)
    (hle : n.curRoundIdx.2 ≤ k) (hout : itemOutcome E inits n.modules b citem = .ok r) :
    k = f := by
  obtain ⟨_, hkf, _, hspent⟩ := h.inside b k hblock
  by_contra hne
  have hspentk := hspent k (by omega) le_rfl (fun hk0 => by omega) citem hcitem
  rw [hout] at hspentk
  exact hspentk

variable [Hashing D]

/-- The loop passes an item, and with it the frontier if it was there. -/
theorem Frontier.pass {k : ℕ} {citem : CItem X}
    (h : Frontier E inits s n done rest f) (hblock : n.block = some (b, k))
    (hcitem : b.citems[k]? = some citem) (hturn : Turned E inits n n' b k citem)
    (hc : n'.Coherent) : ∃ f', Frontier E inits s n' done rest f' ∧
      (n'.block = some (b, k) → f' = f) ∧
      (n'.block = some (b, k + 1) → f' = max f (k + 1)) := by
  obtain ⟨hhead, hkf, hidx, hspent⟩ := h.inside b k hblock
  have hk : k < b.citems.length := (List.getElem?_eq_some_iff.mp hcitem).1
  have hlen := h.within b hhead
  have hstate := h.state_of_head hhead
  have hlater : ∀ {f'}, f' = f → Spent E inits n.modules b (k + 1) f' k := by
    rintro f' rfl j hjf hj hzero
    exact hspent j hjf (by omega) fun hj0 => by omega
  -- past the frontier nothing is left to go through again
  have hnone : ∀ {m : Modules M}, Spent E inits m b (k + 1) (k + 1) k := by
    intro m j hjf hj
    omega
  have hitem : throughItems (applyItem E inits) b (k + 1) (applyBlocks E inits done s) =
      applyItem E inits b
        (throughItems (applyItem E inits) b k (applyBlocks E inits done s)) (citem, k) :=
    throughItems_succ hcitem _
  -- the loop has moved on
  have hmoved : ∀ {f' : ℕ}, f' = max f (k + 1) → n'.block = some (b, k + 1) →
      (n'.block = some (b, k) → f' = f) ∧
        (n'.block = some (b, k + 1) → f' = max f (k + 1)) := by
    intro f' hf' hnext
    refine ⟨fun hsame => ?_, fun _ => hf'⟩
    rw [hnext] at hsame
    simp at hsame
  cases hturn with
  | skipped hlt hn =>
      obtain ⟨hk0, hf⟩ := h.of_skipped hblock hlt
      subst hn
      exact ⟨f, h.past hblock hc hstate rfl rfl rfl (by omega) hlen (hlater rfl),
        hmoved (by omega) rfl⟩
  | applied hle hout hpre hn =>
      have hkeq := h.eq_of_ok hblock hcitem hle hout
      subst hn hkeq
      refine ⟨k + 1, h.past hblock hc ?_ h.round rfl rfl le_rfl (by omega) hnone,
        hmoved (by omega) rfl⟩
      rw [hitem, ← hstate]
      simp only [applyItem, hout]
      rfl
  | failed hle hout hn =>
      subst hn
      by_cases hkeq : k = f
      · subst hkeq
        refine ⟨k + 1, h.past hblock hc ?_ h.round rfl rfl le_rfl (by omega) hnone,
          hmoved (by omega) rfl⟩
        rw [hitem, ← hstate]
        obtain ⟨e, he⟩ := hout
        simp only [applyItem, he]
        rfl
      · exact ⟨f, h.past hblock hc hstate h.round rfl rfl (by omega) hlen (hlater rfl),
          hmoved (by omega) rfl⟩
  | stuck _ hn =>
      subst hn
      refine ⟨f, h.congr hc rfl rfl rfl rfl rfl, fun _ => rfl, fun hnext => ?_⟩
      rw [show n.block = some (b, k + 1) from hnext] at hblock
      simp at hblock

omit [Hashing D] in
/-- The loop has passed all items of a block. -/
theorem Frontier.finish {k : ℕ} (h : Frontier E inits s n done rest f)
    (hsorted : (done ++ rest).Pairwise fun b b' => b.header.round < b'.header.round)
    (hblock : n.block = some (b, k)) (hcitem : b.citems[k]? = none) :
    n.finishBlock b = n ∨ ∃ tail, rest = b :: tail ∧ f = b.citems.length ∧
      (n.finishBlock b).block = none ∧
      Frontier E inits s (n.finishBlock b) (done ++ [b]) tail 0 := by
  obtain ⟨hhead, hkf, _, _⟩ := h.inside b k hblock
  have hlen := h.within b hhead
  have hf : f = b.citems.length := by
    have hk := List.getElem?_eq_none_iff.mp hcitem
    omega
  have hstate := h.state_of_head hhead
  unfold finishBlock
  split
  · next round hround =>
    obtain ⟨tail, rfl⟩ := List.head?_eq_some_iff.mp hhead
    rw [List.pairwise_append, List.pairwise_cons] at hsorted
    obtain ⟨_, ⟨htail, _⟩, hdone⟩ := hsorted
    have hr : round = b.header.round + 1 := (BlockRound.nextExpect_eq_ok.mp hround).2
    refine Or.inr ⟨tail, rfl, hf, rfl, ⟨?_, ?_, ?_, ?_, ?_, ?_, ?_, ?_, ?_⟩⟩
    · exact ⟨h.coherent.peerSet, h.coherent.modulesConfigs⟩
    · intro b' hb'
      rw [hr]
      rcases List.mem_append.mp hb' with hb' | hb'
      · have := hdone b' hb' b List.mem_cons_self
        exact Nat.lt_succ_of_lt this
      · rw [List.mem_singleton.mp hb']
        exact Nat.lt_succ_self _
    · intro b' hb'
      rw [hr]
      exact htail b' hb'
    · rfl
    · rw [throughPart_zero, applyBlocks, throughBlocks_concat, ← hf]
      exact hstate
    · intro b' _
      exact Nat.zero_le _
    · intro hne
      exact absurd rfl hne
    · intro _
      refine ⟨rfl, fun b' _ j hj => ?_⟩
      exact absurd hj (Nat.not_lt_zero _)
    · intro b' k' hk'
      cases hk'
  · exact Or.inl rfl

end Steps

/-! ## Whole runs -/

section Runs

/-- A crash after which the loop goes through no item again that succeeds. -/
def HarmlessRestart (E : Type) [OtherModules M X E] (inits : ModulesInits)
    (n : NodeApp D S M X) : AppOp D S → Prop
  | .restart => ∀ bk ∈ n.block,
      Spent E inits n.modules bk.1 0 bk.2 n.appCurRound.2
  | _ => True

instance (n : NodeApp D S M X) (op : AppOp D S) :
    Decidable (HarmlessRestart E inits n op) := by
  unfold HarmlessRestart
  split <;> infer_instance

/-- The app has gone through the blocks and waits for the next. -/
def GoneThrough (blocks : List (FinalizedBlock D X)) (n : NodeApp D S M X) : Prop :=
  n.block.isNone = true ∧ ∀ b ∈ blocks, b.header.round < n.curRoundIdx.1

instance (blocks : List (FinalizedBlock D X)) (n : NodeApp D S M X) :
    Decidable (GoneThrough blocks n) := by
  unfold GoneThrough
  infer_instance

variable {blocks : List (FinalizedBlock D X)} {s : Applied M}
  {n : NodeApp D S M X}

/-- The blocks up to some item have been gone through. -/
def Reached (E : Type) [OtherModules M X E] (inits : ModulesInits)
    (blocks : List (FinalizedBlock D X)) (s : Applied M) (n : NodeApp D S M X) :
    Prop :=
  ∃ done rest f, done ++ rest = blocks ∧ Frontier E inits s n done rest f

theorem load_frontier (c : Consensus D S) (m : Modules M) (own : OwnVotes) :
    Frontier E inits (m, []) (load c m own (0, 0) []) [] blocks 0 := by
  refine ⟨load_coherent .., ?_, ?_, rfl, ?_, ?_, ?_, ?_, ?_⟩
  · intro b hb
    cases hb
  · intro b _
    exact Nat.zero_le _
  · rw [throughPart_zero]
    rfl
  · intro b _
    exact Nat.zero_le _
  · intro hne
    exact absurd rfl hne
  · intro _
    refine ⟨rfl, fun b _ j hj => ?_⟩
    exact absurd hj (Nat.not_lt_zero _)
  · intro b k hk
    cases hk

/-- A node that has gone through the blocks is past all of them. -/
theorem Frontier.rest_eq_nil {done rest : List (FinalizedBlock D X)} {f : ℕ}
    (h : Frontier E inits s n done rest f) (hgone : GoneThrough (done ++ rest) n) :
    rest = [] := by
  cases rest with
  | nil => rfl
  | cons b rest =>
      have hlt := hgone.2 b (by simp)
      rw [h.round] at hlt
      exact absurd (h.above b List.mem_cons_self) (not_le.mpr hlt)

variable [Hashing D]

theorem next_reached
    (hsorted : blocks.Pairwise fun b b' => b.header.round < b'.header.round)
    (h : Reached E inits blocks s n) :
    Reached E inits blocks s (n.next E inits blocks) := by
  obtain ⟨done, rest, f, rfl, hn⟩ := h
  unfold next
  cases hblock : n.block with
  | none =>
      dsimp only
      rw [hn.find?]
      cases hhead : rest.head? with
      | none => exact ⟨done, rest, f, rfl, hn⟩
      | some b => exact ⟨done, rest, f, rfl, hn.open hhead hblock⟩
  | some bk =>
      obtain ⟨b, k⟩ := bk
      dsimp only
      cases hcitem : b.citems[k]? with
      | none =>
          rcases hn.finish hsorted hblock hcitem with heq | ⟨tail, rfl, _, _, hnext⟩
          · rw [heq]
            exact ⟨done, rest, f, rfl, hn⟩
          · exact ⟨done ++ [b], tail, 0, by simp, hnext⟩
      | some citem =>
          obtain ⟨hturn, hc⟩ := turn_spec (E := E) inits b k citem hn.coherent
          obtain ⟨f', h', _⟩ := hn.pass hblock hcitem hturn hc
          exact ⟨done, rest, f', rfl, h'⟩

variable [DecidableEq S] [Signing D S]

theorem step_reached
    (hsorted : blocks.Pairwise fun b b' => b.header.round < b'.header.round)
    {op : AppOp D S} (h : Reached E inits blocks s n)
    (hop : HarmlessRestart E inits n op) :
    Reached E inits blocks s (step E inits blocks n op) := by
  cases op with
  | next => exact next_reached hsorted h
  | restart =>
      obtain ⟨done, rest, f, heq, hn⟩ := h
      exact ⟨done, rest, f, heq, hn.restart _ hop⟩
  | recvVote i resp =>
      obtain ⟨done, rest, f, heq, hn⟩ := h
      exact ⟨done, rest, f, heq, hn.consensus _⟩
  | recvNotarized resp =>
      obtain ⟨done, rest, f, heq, hn⟩ := h
      exact ⟨done, rest, f, heq, hn.consensus _⟩
  | recvFinality k resp =>
      obtain ⟨done, rest, f, heq, hn⟩ := h
      exact ⟨done, rest, f, heq, hn.consensus _⟩

theorem run_reached
    (hsorted : blocks.Pairwise fun b b' => b.header.round < b'.header.round)
    {c : Consensus D S} {m : Modules M} {own : OwnVotes} {ops : List (AppOp D S)}
    (hops : Trail.Guarded (step E inits blocks) (HarmlessRestart E inits)
      (load c m own (0, 0) []) ops) :
    Reached E inits blocks (m, []) (run E inits blocks (load c m own (0, 0) []) ops) :=
  hops.invariant (I := Reached E inits blocks (m, []))
    (fun _ _ h hop => step_reached hsorted h hop) ⟨[], blocks, 0, rfl, load_frontier c m own⟩

end Runs

/-! ## A node with two peers -/

/-- A node with two peers that runs `consensus-ctrl` and nothing else. -/
abbrev VoteApp := NodeApp ListDigest PlainSig Unit (Option ConsensusCtrlCitem)

/-- The start of such a node. -/
def voteApp : Outcome OpenError VoteApp := do
  let c ← Consensus.init (plainParams [10, 11])
    (Db.empty : Db ListDigest PlainSig) none none
  start c () (.ctrlOnly none)

theorem voteApp_eq_ok {n : VoteApp} : voteApp = .ok n ↔
    ∃ c, Consensus.init (plainParams [10, 11]) (Db.empty : Db ListDigest PlainSig)
      none none = .ok c ∧
        (start c () (.ctrlOnly none) : Outcome OpenError _) = .ok n :=
  Outcome.bind_eq_ok

theorem voteApp_eq_load {n : VoteApp} (h : voteApp = .ok n) :
    ∃ c m own, n = load c m own (0, 0) [] := by
  obtain ⟨c, _, h⟩ := voteApp_eq_ok.mp h
  simp only [start, Outcome.bind_eq_ok, Outcome.pure_eq_ok] at h
  obtain ⟨params, _, h⟩ := h
  exact ⟨c, _, _, h.symm⟩

/-- A block of votes. -/
def voteBlock (round : BlockRound) (k : PeerPubkey)
    (votes : List ConsensusCtrlCitem) :
    FinalizedBlock ListDigest (Option ConsensusCtrlCitem) where
  header := .build none 0 round (plainParams [10, 11]) []
  peerPubkey := k
  citems := votes.map fun vote => .peerCItem ⟨ModuleId.consensusCtrl, some vote⟩

/-- The app takes so many steps. -/
def nexts (k : ℕ) : List (AppOp ListDigest PlainSig) := List.replicate k .next

/-- Peer 11 has voted to remove itself; peer 10 removes it and adds it again. -/
def twiceVoteBlocks :
    List (FinalizedBlock ListDigest (Option ConsensusCtrlCitem)) :=
  [voteBlock 0 11 [.voteRemovePeer 11],
    voteBlock 1 10 [.voteRemovePeer 11, .voteAddPeer 11]]

end NodeApp

end Bfte
