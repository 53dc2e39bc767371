import Bfte.Proofs.Federation
import Bfte.Proofs.Handed
import Bfte.Proofs.Payloads

/-!
# The apps of correct peers are handed the same blocks

A finality vote says how far a peer has got, and not by which blocks. Once enough
peers are past the round of a block, there can be no other blocks that do not extend
it, unless some of these peers have voted for one already, or have it stored as the
proposal they may vote for next. `Backs` excludes that. If enough peers back each
block when it is handed out, every block that is certified later on, or was before,
descends from it, and the apps are all handed the blocks of one chain.
-/

namespace Bfte

open Consensus

/-! ## Peers past a block -/

namespace Node

variable {D S : Type} [LinearOrder D] [Hashing D]

/-- The node has a block of the round or a later one, and what it has voted for since,
or may vote for in this round, is built as it should be. -/
structure Stands (n : Node D S) (r : BlockRound) (built : BlockHeader D → Prop) :
    Prop where
  reached : ∃ e ∈ n.consensus.db.consBlocksNotarized.entries, r ≤ e.1
  cast : ∀ h ∈ n.cast, h.isDummy = false → r < h.round → built h
  proposal : ∀ h ∈ n.consensus.db.consBlocksProposals.get?
    n.consensus.db.getCurrentRound, r < h.round → built h

instance (n : Node D S) (r : BlockRound) (built : BlockHeader D → Prop)
    [DecidablePred built] : Decidable (Stands n r built) :=
  decidable_of_iff ((∃ e ∈ n.consensus.db.consBlocksNotarized.entries, r ≤ e.1) ∧
      (∀ h ∈ n.cast, h.isDummy = false → r < h.round → built h) ∧
      ∀ h ∈ n.consensus.db.consBlocksProposals.get?
        n.consensus.db.getCurrentRound, r < h.round → built h)
    ⟨fun h => ⟨h.1, h.2.1, h.2.2⟩, fun h => ⟨h.reached, h.cast, h.proposal⟩⟩

theorem Stands.mono {n : Node D S} {r : BlockRound}
    {built built' : BlockHeader D → Prop} (h : Stands n r built)
    (hbuilt : ∀ b, built b → built' b) : Stands n r built' where
  reached := h.reached
  cast b hb hdummy hlt := hbuilt b (h.cast b hb hdummy hlt)
  proposal b hb hlt := hbuilt b (h.proposal b hb hlt)

variable [DecidableEq S] [Signing D S]

/-- What the node votes for next extends its latest block. -/
theorem Stands.step {n : Node D S} {r : BlockRound} {built : BlockHeader D → Prop}
    (h : Stands n r built) (op : NodeOp D S) (honce : OnceInv n)
    (hinv : BoundedInv n.consensus.db)
    (hnew : ∀ latest ∈ n.consensus.db.getPrevNotarizedBlock
        n.consensus.db.getCurrentRound, r ≤ latest.round →
      ∀ b : BlockHeader D, b.Extends (some latest) → built b) :
    Stands (n.step op) r built := by
  obtain ⟨⟨k, e⟩, hmem, hle⟩ := h.reached
  have he := SortedTable.mem_entries'.mp hmem
  have hext : ∀ b : BlockHeader D, b.Extends (n.consensus.db.getPrevNotarizedBlock
      n.consensus.db.getCurrentRound) → built b := by
    intro b hb
    obtain ⟨latest, hlatest, hle'⟩ := hinv.le_latest he
    rw [hlatest] at hb
    exact hnew latest hlatest (hle.trans hle') b hb
  -- a proposal of the current round, or one that is new
  have hproposal : ∀ cop k b, k = n.consensus.db.getCurrentRound →
      (n.consensus.step cop).db.consBlocksProposals.get? k = some b →
      r < b.round → built b := by
    rintro cop k b rfl hb hlt
    rcases step_proposal_extends _ cop hinv.toRoundInv hb with hold | ⟨_, hb⟩
    · exact h.proposal b hold hlt
    · exact hext b hb
  refine ⟨?_, ?_, ?_⟩
  · rcases step_consensus n op with hsame | ⟨cop, hcop⟩
    · rw [hsame]
      exact h.reached
    · obtain ⟨k', e', he', hle'⟩ :=
        step_notarized_le n.consensus cop hinv.toRoundInv he
      rw [hcop]
      exact ⟨(k', e'), SortedTable.mem_entries.mpr he', hle.trans hle'⟩
  · have hcase := step_nodeCase n op
    generalize n.step op = n' at hcase
    cases hcase with
    | delivered k e c he hok =>
        intro b hb hdummy hlt
        rcases List.mem_append.mp hb with hb | hb
        · exact h.cast b hb hdummy hlt
        · obtain rfl := List.mem_singleton.mp hb
          have hstored := delivered_stored hinv.toRoundInv
            (honce.events e (List.mem_of_getElem? he)) hok hdummy
          have hround := processVoteResponseTx_round hok
          have hstep : n.consensus.step (.vote e.peerIdx e.resp) = c := by
            rw [Consensus.step, hok]
            rfl
          rw [← hstep] at hstored
          exact hproposal _ _ _ hround hstored hlt
    | _ => exact h.cast
  · rcases step_consensus n op with hsame | ⟨cop, hcop⟩
    · rw [hsame]
      exact h.proposal
    · rw [hcop]
      intro b hb hlt
      refine hproposal cop _ b (le_antisymm ?_ ?_) hb hlt
      · rcases step_proposal_extends _ cop hinv.toRoundInv hb with hold | ⟨hcur, _⟩
        · exact (hinv.proposal _ b hold).2.2
        · exact hcur.le
      · exact (step_onward n.consensus cop hinv.toRoundInv).cur_le

end Node

/-! ## Enough of them -/

namespace Federation

variable {D S : Type} [LinearOrder D] [Hashing D]

/-- The block is built on one of round `r` or a later one that was voted for. -/
def BuiltFrom (F : Federation D) (w : World D S) (r : BlockRound)
    (b : BlockHeader D) : Prop :=
  ∃ j < F.params.peers.len, ∃ parent ∈ (w j).node.cast,
    b.Extends (some parent) ∧ r ≤ parent.round

instance (F : Federation D) (w : World D S) (r : BlockRound) :
    DecidablePred (F.BuiltFrom w r) :=
  fun _ => inferInstanceAs (Decidable (∃ j < _, ∃ parent ∈ _, _))

/-- The peer is past the round of the block, and has voted for no later block, and
stored no proposal for its round, that is built on something before it. -/
def Backs (F : Federation D) (w : World D S) (b : BlockHeader D) (i : ℕ) : Prop :=
  Node.Stands (w i).node b.round (F.BuiltFrom w b.round)

instance (F : Federation D) (w : World D S) (b : BlockHeader D) :
    DecidablePred (F.Backs w b) :=
  fun _ => inferInstanceAs (Decidable (Node.Stands _ _ _))

/-- A block that is handed to the app of a correct peer is backed by enough peers. -/
def HandsBacked (F : Federation D) (w : World D S) (a : WorldOp D S) : Prop :=
  match a.op with
  | .app => F.Correct a.node →
      ∀ b ∈ (w a.node).handsOut, F.Quorum (F.Backs w b)
  | .node _ => True

instance (F : Federation D) (w : World D S) :
    ∀ a : WorldOp D S, Decidable (F.HandsBacked w a)
  | ⟨_, .app⟩ => inferInstanceAs (Decidable (_ → ∀ b ∈ _, _))
  | ⟨_, .node _⟩ => .isTrue trivial

/-- A correct peer takes no block of the last round number. -/
def BelowLast [Signing D S] (F : Federation D) (w : World D S) (a : WorldOp D S) :
    Prop :=
  match a.op with
  | .node (.recvNotarized resp) => F.Correct a.node →
      Consensus.BelowLast (w a.node).node.consensus (.notarized resp)
  | _ => True

instance [Signing D S] (F : Federation D) (w : World D S) :
    ∀ a : WorldOp D S, Decidable (F.BelowLast w a)
  | ⟨_, .node (.recvNotarized _)⟩ => inferInstanceAs (Decidable (_ → _))
  | ⟨_, .node (.recvVote _ _)⟩ => .isTrue trivial
  | ⟨_, .node (.recvFinality _ _)⟩ => .isTrue trivial
  | ⟨_, .node (.proposalTask _ _)⟩ => .isTrue trivial
  | ⟨_, .node .voteTask⟩ => .isTrue trivial
  | ⟨_, .node .timeoutTask⟩ => .isTrue trivial
  | ⟨_, .node (.deliver _)⟩ => .isTrue trivial
  | ⟨_, .node (.paramsChange _ _ _)⟩ => .isTrue trivial
  | ⟨_, .node .restart⟩ => .isTrue trivial
  | ⟨_, .app⟩ => .isTrue trivial

end Federation

open Federation

variable {D S X : Type} [LinearOrder D] [Hashing D] [DecidableEq S] [Signing D S]
  {F : Federation D} {decode : BlockPayloadRaw → Option (List (CItem X))}
  {w : World D S}

/-- What the correct peers of such a federation have in common. -/
structure AgreeInv (F : Federation D) (w : World D S) : Prop
    extends WorldInv F w where
  bounded : ∀ i, F.Correct i → BoundedInv (w i).db
  rooted : ∀ i, F.Correct i → Rooted (w i).db
  parents : ∀ i, F.Correct i → ∀ r b,
    (w i).db.consBlocksProposals.get? r = some b → ∃ parent, b.Extends parent ∧
      ∀ p ∈ parent, F.Certified w p ∧ p.isDummy = false
  backed : ∀ i, F.Correct i → ∀ b ∈ (w i).handed,
    F.Certified w b ∧ b.isDummy = false ∧ F.Quorum (F.Backs w b)
  ordered : ∀ i, F.Correct i → (w i).Ordered

/-! ## Descent -/

/-- A later descendant has a parent that is one too. -/
theorem parent_of_descends {b c : BlockHeader D}
    (h : Lineage.Descends BlockHeader.Extends b c) (hlt : b.round < c.round) :
    ∃ p, c.Extends (some p) ∧ b.round ≤ p.round ∧ (p.round ≤ b.round → b = p) := by
  have hmono : ∀ c p : BlockHeader D, c.Extends (some p) → p.round < c.round :=
    fun _ _ hext => hext.round_lt
  rcases h.cases with rfl | ⟨p, hp, hext⟩
  · exact absurd hlt (lt_irrefl _)
  · exact ⟨p, hext, hp.le_of_lt hmono, hp.eq_of_le hmono⟩

omit [DecidableEq S] in
/-- A certified block extends a certified block, or is a first block. -/
theorem AgreeInv.parent (hw : AgreeInv F w) {b : BlockHeader D}
    (hb : F.Certified w b) (hdummy : b.isDummy = false) : ∃ parent, b.Extends parent ∧
      ∀ p ∈ parent, F.Certified w p ∧ p.isDummy = false := by
  obtain ⟨i, hi, _, hstored⟩ := hb.proposed hw.toWorldInv hdummy
  exact hw.parents i hi _ b hstored

omit [DecidableEq S] in
/-- A certified block of a later round descends from a block that enough peers
back. The induction is on the round. -/
theorem AgreeInv.descends [CollisionFree D] (hw : AgreeInv F w) {b : BlockHeader D}
    (hb : F.Certified w b) (hbdummy : b.isDummy = false)
    (hbacked : F.Quorum (F.Backs w b)) {c : BlockHeader D} (hc : F.Certified w c)
    (hdummy : c.isDummy = false) (hlt : b.round < c.round) :
    Lineage.Descends BlockHeader.Extends b c := by
  induction hround : c.round using Nat.strong_induction_on generalizing c with
  | h r ih =>
      subst hround
      obtain ⟨i, hi, hstands, hcast⟩ := Quorum.common hbacked hc
      obtain ⟨j, _, parent, _, hext, hle⟩ := hstands.cast c hcast hdummy hlt
      obtain ⟨parent', hext', hparent⟩ := hw.parent hc hdummy
      obtain ⟨hcert, hpdummy⟩ := hparent parent (hext'.unique hext)
      rcases eq_or_lt_of_le hle with heq | hlater
      · rw [hb.unique hw.toWorldInv hcert heq hbdummy hpdummy]
        exact (Lineage.Descends.refl parent).child hext
      · exact (ih parent.round hext.round_lt hcert hpdummy hlater rfl).child hext

omit [DecidableEq S] in
/-- The parent of the next block that is not before the place of the app is. -/
theorem AgreeInv.parent_lt (hw : AgreeInv F w) {i : ℕ} (hi : F.Correct i)
    {b parent : BlockHeader D}
    (hb : (w i).db.consBlocksNotarized.get? b.round = some b)
    (hskip : Skipped (w i).db (w i).place b.round)
    (hext : b.Extends (some parent)) : parent.round < (w i).place := by
  obtain ⟨k, e, he, hle, hlt⟩ := (hw.rooted i hi).notarized _ b parent hb hext
  by_contra hge
  exact absurd hlt (not_lt.mpr (hskip.gap k e he ((not_lt.mp hge).trans hle)))

omit [DecidableEq S] in
/-- The block handed out next follows the last one. -/
theorem AgreeInv.hand_ordered [CollisionFree D] (hw : AgreeInv F w) {i : ℕ}
    (hi : F.Correct i) {b : BlockHeader D}
    (hb : (w i).db.consBlocksNotarized.get? b.round = some b)
    (hskip : Skipped (w i).db (w i).place b.round) : ((w i).hand b).Ordered := by
  have hcert := hw.certified i _ b hb
  have hdummy := ((hw.counted i).notarized _ b hb).2
  obtain ⟨parent, hext, _⟩ := hw.parent hcert hdummy
  refine (hw.ordered i hi).hand hskip (fun hplace => ?_) fun last hlast hopen => ?_
  · cases hlast : (w i).handed.getLast? with
    | none =>
        rw [hlast] at hplace
        cases parent with
        | none => exact hext
        | some p =>
            have hp := hw.parent_lt hi hb hskip hext
            rw [hplace] at hp
            exact absurd hp (Nat.not_lt_zero _)
    | some last =>
        rw [hlast] at hplace
        obtain ⟨hlcert, hldummy, hbacked⟩ :=
          hw.backed i hi last (List.mem_of_getLast? hlast)
        have hlt : last.round < b.round := by
          have := hskip.place_le
          rw [hplace] at this
          exact this
        obtain ⟨p, hbp, _, hsame⟩ := parent_of_descends
          (hw.descends hlcert hldummy hbacked hcert hdummy hlt) hlt
        have hple := hw.parent_lt hi hb hskip hbp
        rw [hplace] at hple
        rw [hsame (Nat.lt_succ_iff.mp hple)]
        exact hbp
  · obtain ⟨hlcert, hldummy, hbacked⟩ :=
      hw.backed i hi last (List.mem_of_getLast? hlast)
    have hle := hopen.gap _ b hb hskip.place_le
    rcases eq_or_lt_of_le hle with heq | hlt
    · exact hcert.unique hw.toWorldInv hlcert heq.symm hdummy hldummy
    · obtain ⟨p, hbp, hge, _⟩ := parent_of_descends
        (hw.descends hlcert hldummy hbacked hcert hdummy hlt) hlt
      have hple := hw.parent_lt hi hb hskip hbp
      have hplace := hopen.place_le
      exact absurd (hge.trans_lt hple) (not_lt.mpr hplace)

/-! ## Steps -/

omit [Hashing D] [DecidableEq S] [Signing D S] in
theorem Federation.BuiltFrom.mono [Hashing D] {w' : World D S} {r : BlockRound}
    {b : BlockHeader D} (h : F.BuiltFrom w r b)
    (hcast : ∀ i, ∀ c ∈ (w i).node.cast, c ∈ (w' i).node.cast) :
    F.BuiltFrom w' r b := by
  obtain ⟨j, hj, parent, hparent, hext⟩ := h
  exact ⟨j, hj, parent, hcast j parent hparent, hext⟩

/-- A peer that backs a block goes on backing it. -/
theorem AgreeInv.backs_step (hw : AgreeInv F w) (a : WorldOp D S)
    {b : BlockHeader D} {i : ℕ} (hi : F.Correct i) (h : F.Backs w b i) :
    F.Backs (w.step decode a) b i := by
  have hmono := World.step_cast_mono decode w a
  have hbuilt : ∀ c, F.BuiltFrom w b.round c →
      F.BuiltFrom (w.step decode a) b.round c := fun c hc => hc.mono hmono
  unfold Backs at h ⊢
  rcases World.step_cases decode w a i with hsame | ⟨op, _, hstep⟩
  · rw [hsame]
    exact h.mono hbuilt
  · rw [hstep]
    refine (h.mono hbuilt).step op (hw.once i hi) (hw.bounded i hi) ?_
    intro latest hlatest hle c hc
    have hget := (hw.bounded i hi).prev_mem hlatest
    obtain ⟨j, hj, hcast⟩ := Federation.Quorum.exists_correct (hw.certified i _ latest hget)
    exact ⟨j, hj.lt, latest, hmono j latest hcast, hc, hle⟩

omit [DecidableEq S] in
variable (decode) in
theorem Federation.BelowLast.step_cases [DecidableEq S] {a : WorldOp D S}
    (hg : F.BelowLast w a) {i : ℕ} (hi : F.Correct i) :
    (w.step decode a i).node.consensus = (w i).node.consensus ∨ ∃ cop,
      (w.step decode a i).node.consensus = (w i).node.consensus.step cop ∧
        Consensus.BelowLast (w i).node.consensus cop := by
  rcases World.step_cases decode w a i with h | ⟨op, rfl, h⟩
  · rw [h]
    exact Or.inl rfl
  · rw [h]
    rcases Node.step_drives (w i).node op with heq | ⟨cop, hdrives, heq⟩
    · exact Or.inl heq
    · refine Or.inr ⟨cop, heq, ?_⟩
      cases hdrives with
      | notarized => exact hg hi
      | _ => trivial

theorem AgreeInv.parents_step [CollisionFree D] (hw : AgreeInv F w)
    {a : WorldOp D S} (hg : F.BelowLast w a) {i : ℕ} (hi : F.Correct i)
    {r : BlockRound} {b : BlockHeader D}
    (hb : (w.step decode a i).db.consBlocksProposals.get? r = some b) :
    ∃ parent, b.Extends parent ∧
      ∀ p ∈ parent, F.Certified (w.step decode a) p ∧ p.isDummy = false := by
  have hold : (w i).db.consBlocksProposals.get? r = some b → ∃ parent,
      b.Extends parent ∧
        ∀ p ∈ parent, F.Certified (w.step decode a) p ∧ p.isDummy = false := by
    intro hb
    obtain ⟨parent, hext, hparent⟩ := hw.parents i hi r b hb
    exact ⟨parent, hext, fun p hp => ⟨(hparent p hp).1.step a, (hparent p hp).2⟩⟩
  rcases hg.step_cases decode hi with h | ⟨cop, h, _⟩
  · rw [Peer.db, h] at hb
    exact hold hb
  · rw [Peer.db, h] at hb
    rcases step_proposal_extends _ cop (hw.bounded i hi).toRoundInv hb with hb |
      ⟨_, hext⟩
    · exact hold hb
    · refine ⟨_, hext, fun p hp => ?_⟩
      have hget := (hw.bounded i hi).prev_mem hp
      exact ⟨(hw.certified i _ p hget).step a, ((hw.counted i).notarized _ p hget).2⟩

variable (decode) in
/-- Only its app hands a node blocks, and these are backed. -/
theorem AgreeInv.backed_step (hw : AgreeInv F w) {a : WorldOp D S}
    (hg : F.HandsBacked w a) {i : ℕ} (hi : F.Correct i) {b : BlockHeader D}
    (hb : b ∈ (w.step decode a i).handed) :
    F.Certified w b ∧ b.isDummy = false ∧ F.Quorum (F.Backs w b) := by
  by_cases hself : i = a.node
  swap
  · rw [World.step_other hself] at hb
    exact hw.backed i hi b hb
  · obtain ⟨j, op⟩ := a
    obtain rfl : i = j := hself
    rw [World.step_self] at hb
    cases op with
    | node op =>
        have hsame : ((w i).step decode (.node op)).handed = (w i).handed := by
          cases op <;> rfl
        exact hw.backed i hi b (hsame ▸ hb)
    | app =>
        have hcase := Peer.step_appCase decode (w i)
        generalize (w i).step decode .app = p' at hcase hb
        cases hcase with
        | hands wait c hblock hwaiting hnext hout =>
            by_cases hlast : (w i).handed.getLast? = some c
            · rw [show ((w i).hand c).handed = (w i).handed from if_pos hlast] at hb
              exact hw.backed i hi b hb
            · rw [show ((w i).hand c).handed = (w i).handed ++ [c] from
                if_neg hlast] at hb
              rcases List.mem_append.mp hb with hb | hb
              · exact hw.backed i hi b hb
              · obtain rfl := List.mem_singleton.mp hb
                have hget := ((hw.bounded i hi).next_spec hnext).1
                exact ⟨hw.certified i _ _ hget, ((hw.counted i).notarized _ _ hget).2,
                  hg hi _ hout⟩
        | _ => exact hw.backed i hi b hb

theorem step_agreeInv [CollisionFree D] (w : World D S) (a : WorldOp D S)
    (hw : AgreeInv F w)
    (hg : F.Genuine w a ∧ F.BelowLast w a ∧ F.HandsBacked w a) :
    AgreeInv F (w.step decode a) := by
  refine ⟨step_worldInv w a hw.toWorldInv hg.1, fun i hi => ?_, fun i hi => ?_,
    fun i hi r b => hw.parents_step hg.2.1 hi, fun i hi b hb => ?_, fun i hi => ?_⟩
  · rcases hg.2.1.step_cases decode hi with h | ⟨cop, h, hbelow⟩
    · rw [Peer.db, h]
      exact hw.bounded i hi
    · rw [Peer.db, h]
      exact step_boundedInv _ cop (hw.bounded i hi) hbelow
  · rcases hg.2.1.step_cases decode hi with h | ⟨cop, h, hbelow⟩
    · rw [Peer.db, h]
      exact hw.rooted i hi
    · rw [Peer.db, h]
      exact step_rooted _ cop (hw.bounded i hi) (hw.rooted i hi) hbelow
  · obtain ⟨hcert, hdummy, hbacked⟩ := hw.backed_step decode hg.2.2 hi hb
    exact ⟨hcert.step a, hdummy, hbacked.mono fun j hj => hw.backs_step a hj⟩
  · by_cases hself : i = a.node
    swap
    · rw [World.step_other hself]
      exact hw.ordered i hi
    · obtain ⟨j, op⟩ := a
      obtain rfl : i = j := hself
      rw [World.step_self]
      cases op with
      | node op => exact (hw.ordered i hi).node (hw.bounded i hi) op
      | app =>
          refine (Peer.step_appCase decode (w i)).ordered (hw.ordered i hi)
            (hw.bounded i hi).toBlockInv fun b _ _ hb hskip => ?_
          exact hw.hand_ordered hi hb hskip

omit [DecidableEq S] in
theorem started_agreeInv (h : F.Started w) : AgreeInv F w := by
  have hproposals : ∀ i r b, (w i).db.consBlocksProposals.get? r ≠ some b := by
    intro i r b hb
    obtain ⟨_, _, c, hc, hwi⟩ := h.of_init i
    obtain ⟨c₁, v, hsame, hv⟩ := init_closed hc
    rw [hwi, show (Peer.start c).db = c.db from rfl, hv.proposals_eq,
      hsame.proposals] at hb
    cases hb
  refine ⟨started_worldInv h, fun i _ => ?_, fun i _ => ?_,
    fun i _ r b hb => absurd hb (hproposals i r b), fun i _ b hb => ?_, fun i _ => ?_⟩
  · obtain ⟨_, _, c, hc, hwi⟩ := h.of_init i
    rw [hwi]
    exact (init_chainInv hc).toBoundedInv
  · refine ⟨fun r b parent hb => ?_, fun b parent hb => absurd hb (hproposals i _ b)⟩
    obtain ⟨_, _, c, hc, hwi⟩ := h.of_init i
    obtain ⟨c₁, v, hsame, hv⟩ := init_closed hc
    rw [hwi] at hb
    rcases hv.notarized_cases hb with hold | ⟨_, _, hp, _⟩
    · rw [hsame.notarized] at hold
      cases hold
    · rw [hsame.proposals] at hp
      cases hp
  · obtain ⟨_, _, c, _, hwi⟩ := h.of_init i
    rw [hwi] at hb
    cases hb
  · obtain ⟨_, _, c, _, hwi⟩ := h.of_init i
    rw [hwi]
    exact Peer.start_ordered c

/-! ## Agreement -/

omit [DecidableEq S] in
/-- If the last block of the one is not later than that of the other, all blocks of
the one have been handed to the other. -/
theorem AgreeInv.prefix_of_last [CollisionFree D] (hw : AgreeInv F w) {p q : ℕ}
    (hp : F.Correct p) (hq : F.Correct q) {b c : BlockHeader D}
    (hb : (w p).handed.getLast? = some b) (hc : (w q).handed.getLast? = some c)
    (hle : b.round ≤ c.round) : (w p).handed <+: (w q).handed := by
  obtain ⟨hbcert, hbdummy, hbacked⟩ := hw.backed p hp b (List.mem_of_getLast? hb)
  obtain ⟨hccert, hcdummy, _⟩ := hw.backed q hq c (List.mem_of_getLast? hc)
  have hunique : Lineage.UniqueParent (BlockHeader.Extends (D := D)) :=
    fun _ _ _ => BlockHeader.Extends.unique
  have hdesc : Lineage.Descends BlockHeader.Extends b c := by
    rcases eq_or_lt_of_le hle with heq | hlt
    · rw [hbcert.unique hw.toWorldInv hccert heq hbdummy hcdummy]
      exact .refl c
    · exact hw.descends hbcert hbdummy hbacked hccert hcdummy hlt
  refine (hw.ordered p hp).chain.prefix_of_mem hunique (hw.ordered q hq).chain ?_
  intro b' hb'
  rw [hb] at hb'
  cases hb'
  exact (hw.ordered q hq).chain.mem_of_descends hunique hdesc (List.mem_of_getLast? hc)

/-- In every run in which each block that is handed out is backed by enough peers,
of what two correct peers have been handed the one is a prefix of the other. -/
theorem handed_prefix_of_backed [CollisionFree D] {w₀ : World D S}
    {ops : List (WorldOp D S)} (hstart : F.Started w₀)
    (hops : Trail.Guarded (World.step decode)
      (fun w a => F.Genuine w a ∧ F.BelowLast w a ∧ F.HandsBacked w a) w₀ ops)
    {p q : ℕ} (hp : F.Correct p) (hq : F.Correct q) :
    (World.run decode w₀ ops p).handed <+: (World.run decode w₀ ops q).handed ∨
      (World.run decode w₀ ops q).handed <+: (World.run decode w₀ ops p).handed := by
  have hw : AgreeInv F (World.run decode w₀ ops) :=
    hops.invariant (I := AgreeInv F) step_agreeInv (started_agreeInv hstart)
  generalize World.run decode w₀ ops = w at hw
  cases hb : (w p).handed.getLast? with
  | none =>
      rw [List.getLast?_eq_none_iff.mp hb]
      exact Or.inl List.nil_prefix
  | some b =>
      cases hc : (w q).handed.getLast? with
      | none =>
          rw [List.getLast?_eq_none_iff.mp hc]
          exact Or.inr List.nil_prefix
      | some c =>
          rcases le_total b.round c.round with hle | hle
          · exact Or.inl (hw.prefix_of_last hp hq hb hc hle)
          · exact Or.inr (hw.prefix_of_last hq hp hc hb hle)

/-! ## Four correct peers -/

open Node

/-- The finality vote of the peer `j` reaches `i`. -/
def quadFinality (i j : ℕ) (round : BlockRound) : WorldOp ListDigest PlainSig :=
  let k := quadKeys.getD j 0
  ⟨i, .node (.recvFinality k ⟨round, (k, .finality round)⟩)⟩

/-- The app of a peer asks for a block and waits for it to be final. -/
def quadApp (i : ℕ) : List (WorldOp ListDigest PlainSig) :=
  [⟨i, .app⟩, ⟨i, .app⟩, ⟨i, .app⟩, ⟨i, .app⟩]

/-- The block of round 0 is notarized by one of four peers. The others, which have
voted for it too, give up on the round, notarize a first block in round 1, and say
that they are past it. -/
def pastFirst : List (WorldOp ListDigest PlainSig) :=
  let first := quadBlock none 0 [0]
  let other := quadBlock none 1 [0]
  let skip := BlockHeader.newDummy 0 (plainParams quadKeys)
  quadTask 3 (.proposalTask [0] 0) ++
    [quadPropose 1 3 first [0]] ++ quadTask 1 .voteTask ++
    [quadPropose 2 3 first [0]] ++ quadTask 2 .voteTask ++
    [quadPropose 0 3 first [0], quadVote 0 1 first, quadVote 0 2 first] ++
    quadTask 1 .timeoutTask ++ quadTask 2 .timeoutTask ++ quadTask 3 .timeoutTask ++
    [quadVote 1 2 skip, quadVote 1 3 skip, quadVote 2 1 skip, quadVote 2 3 skip,
      quadVote 3 1 skip, quadVote 3 2 skip] ++
    quadTask 1 (.proposalTask [0] 0) ++
    [quadPropose 2 1 other [0]] ++ quadTask 2 .voteTask ++
    [quadPropose 3 1 other [0]] ++ quadTask 3 .voteTask ++
    [quadVote 1 2 other, quadVote 1 3 other, quadVote 2 3 other, quadVote 3 2 other] ++
    [quadFinality 0 1 2, quadFinality 0 2 2, quadFinality 0 3 2] ++ quadApp 0 ++
    [quadFinality 2 1 2, quadFinality 2 3 2] ++ quadApp 2

/-- The world after that, in which nobody has misbehaved. -/
def pastFirstWorld : World ListDigest PlainSig :=
  World.run plainDecode (plainWorld (quadFederation 14)) pastFirst

/-- The one app is handed the block of round 0, the other that of round 1. -/
theorem apps_disagree :
    ¬ ∀ (w : World ListDigest PlainSig) (p q : ℕ),
      (quadFederation 14).Reachable plainDecode w →
      (quadFederation 14).Correct p → (quadFederation 14).Correct q →
      (w p).handed <+: (w q).handed ∨ (w q).handed <+: (w p).handed := by
  intro h
  have hreach : (quadFederation 14).Reachable plainDecode pastFirstWorld :=
    ⟨_, pastFirst, quadWorld_started 14, by decide +kernel, rfl⟩
  have hrun : (pastFirstWorld 0).handed = [quadBlock none 0 [0]] ∧
      (pastFirstWorld 2).handed = [quadBlock none 1 [0]] := by decide +kernel
  have hagree := h pastFirstWorld 0 2 hreach (by decide) (by decide)
  rw [hrun.1, hrun.2] at hagree
  revert hagree
  decide

/-- Two apps are handed a block that all have. -/
def bothDeliver : List (WorldOp ListDigest PlainSig) :=
  proposeAndDeliver [0] ++ [⟨0, .app⟩, quadFinality 1 0 1, quadFinality 1 2 1] ++
    quadApp 1

theorem handed_prefix_of_bothDeliver :
    let w := World.run plainDecode (plainWorld (quadFederation 13)) bothDeliver
    (w 0).handed <+: (w 1).handed ∨ (w 1).handed <+: (w 0).handed := by
  have hops : Trail.Guarded (World.step plainDecode)
      (fun w a => (quadFederation 13).Genuine w a ∧
        (quadFederation 13).BelowLast w a ∧ (quadFederation 13).HandsBacked w a)
      (plainWorld (quadFederation 13)) bothDeliver := by
    decide +kernel
  exact handed_prefix_of_backed (quadWorld_started 13) hops (by decide) (by decide)

end Bfte
