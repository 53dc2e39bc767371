import Mathlib.Data.Finset.Card
import Bfte.Proofs.Unapplied

/-!
# How an agreed value changes

A vote that is counted and a recheck after a removal are two pieces of code that decide
a key, each with its own way of counting. Both give a key a value only if a threshold of
the members stand by it, both clear the key afterwards, and neither touches another key.
-/

namespace Bfte

namespace MetaDb

/-- The votes that stand once that of a citem has been cast. -/
def standingVotes (db : MetaDb) (voter : PeerPubkey) (citem : Option MetaCitem) :
    SortedTable (MetaKey ×ₗ PeerPubkey) MetaValue :=
  match db.castVote citem with
  | some (key, value) => db.keyValueVotes.insert (toLex (key, voter)) value
  | none => db.keyValueVotes

/-- The members that stand by a value. -/
def standBy (votes : SortedTable (MetaKey ×ₗ PeerPubkey) MetaValue)
    (peerSet : PeerSet) (key : MetaKey) (value : MetaValue) : Finset PeerPubkey :=
  peerSet.items.toFinset.filter fun k => votes.get? (toLex (key, k)) = some value

/-- A key has been decided by those who stand by a value, and cleared. -/
structure Decided (votes : SortedTable (MetaKey ×ₗ PeerPubkey) MetaValue)
    (peerSet : PeerSet) (db' : MetaDb) (key : MetaKey) (value : MetaValue) : Prop where
  quorum : (NumPeers.mk peerSet.len).threshold ≤ (standBy votes peerSet key value).card
  value : db'.consensusValues.get? key = some value
  pending : db'.pendingProposals.get? key = none
  votes : ∀ k, peerSet.contains k = true →
    db'.keyValueVotes.get? (toLex (key, k)) = none

/-- Agreed values change by decisions only, and the keys that are left alone are
untouched. -/
structure ChangesByQuorum (votes : SortedTable (MetaKey ×ₗ PeerPubkey) MetaValue)
    (peerSet : PeerSet) (alone : MetaKey → Prop) (db db' : MetaDb) : Prop where
  decided : ∀ key, db'.consensusValues.get? key ≠ db.consensusValues.get? key →
    ∃ value, Decided votes peerSet db' key value
  frame : ∀ key, alone key → SameOn db db' key

theorem ChangesByQuorum.refl (votes : SortedTable (MetaKey ×ₗ PeerPubkey) MetaValue)
    (peerSet : PeerSet) (alone : MetaKey → Prop) (db : MetaDb) :
    ChangesByQuorum votes peerSet alone db db :=
  ⟨fun _ hne => absurd rfl hne, fun key _ => .refl db key⟩

theorem card_standBy (db : MetaDb) (peerSet : PeerSet) (key : MetaKey)
    (value : MetaValue) : (standBy db.keyValueVotes peerSet key value).card =
      db.countVotes peerSet key value := by
  have hset : standBy db.keyValueVotes peerSet key value =
      (db.supporters peerSet key value).toFinset := by
    ext k
    rw [standBy, Finset.mem_filter, List.mem_toFinset, List.mem_toFinset,
      mem_supporters, and_comm]
    refine and_congr_right fun _ => ?_
    rw [PeerSet.contains, decide_eq_true_iff]
  rw [hset, List.toFinset_card_of_nodup (db.supporters_nodup peerSet key value),
    countVotes_eq]

/-! ## A vote -/

theorem VoteCase.changesByQuorum {db db' : MetaDb} {voter : PeerPubkey}
    {peerSet : PeerSet} {key : MetaKey} {value : MetaValue}
    {effects : List KeyValueConsensusEffect}
    (h : VoteCase db voter peerSet key value db' effects) :
    ChangesByQuorum (db.keyValueVotes.insert (toLex (key, voter)) value) peerSet
      (· ≠ key) db db' := by
  have hother : ∀ {k : MetaKey} (w : PeerPubkey), k ≠ key →
      toLex (k, w) ≠ toLex (key, voter) :=
    fun w hk heq => hk (congrArg (fun x => (ofLex x).1) heq)
  cases h with
  | repeated => exact .refl _ _ _ db
  | recorded _ _ _ hdb =>
      rw [hdb]
      refine ⟨fun k hne => absurd rfl hne, fun k hk => ⟨fun w => ?_, rfl, rfl⟩⟩
      exact SortedTable.get?_insert_of_ne (hother w hk)
  | decided db₁ _ _ hvotes hvalues hpending henough =>
      constructor
      · intro k hne
        rw [clearVotes_consensusValues, hvalues, SortedTable.get?_insert] at hne
        have hk : k = key := by
          by_contra hk
          exact hne (if_neg hk)
        rw [hk]
        refine ⟨value, ?_, ?_, ?_, fun w hw => ?_⟩
        · rw [← hvotes, card_standBy]
          exact henough
        · rw [clearVotes_consensusValues, hvalues, SortedTable.get?_insert_self]
        · rw [clearVotes_pendingProposals, hpending, SortedTable.get?_remove, if_pos rfl]
        · rw [get?_clearVotes, if_pos ⟨rfl, hw⟩]
      · intro k hk
        refine ⟨fun w => ?_, ?_, ?_⟩
        · rw [get?_clearVotes, if_neg fun h => hk h.1, hvotes,
            SortedTable.get?_insert_of_ne (hother w hk)]
        · rw [clearVotes_consensusValues, hvalues, SortedTable.get?_insert_of_ne hk]
        · rw [clearVotes_pendingProposals, hpending, SortedTable.get?_remove, if_neg hk]

/-! ## A recheck -/

/-- Rechecks one after the other are like one: what the first decides the second
leaves alone. -/
theorem Rechecked.trans {peerSet : PeerSet} {db db₁ db' : MetaDb} {key : MetaKey}
    (h : Rechecked peerSet db db₁ key) (h' : Rechecked peerSet db₁ db' key) :
    Rechecked peerSet db db' key := by
  cases h with
  | skipped _ hsame => exact h'.congr_left hsame
  | undecided _ _ hsame => exact h'.congr_left hsame
  | decided value hfree hpos henough hvalue hpending hvotes =>
      have hthen : Rechecked peerSet db db₁ key :=
        .decided value hfree hpos henough hvalue hpending hvotes
      cases h' with
      | skipped _ hsame => exact hthen.congr_right hsame
      | undecided hfree' => rw [hvalue] at hfree'; cases hfree'
      | decided _ hfree' => rw [hvalue] at hfree'; cases hfree'

theorem processEffects_keys {E : Type} {exclusive : Bool} {peerSet : PeerSet}
    {effects : List (ModuleCItemEffect E)} {db db' : MetaDb}
    (h : db.processEffects exclusive peerSet effects = .ok db') (key : MetaKey) :
    SameOn db db' key ∨ Rechecked peerSet db db' key := by
  induction effects generalizing db with
  | nil =>
      cases h
      exact Or.inl (.refl _ key)
  | cons effect effects ih =>
      unfold processEffects at h
      split at h
      · obtain ⟨db₁, hdb₁, h⟩ := Outcome.bind_eq_ok.mp h
        have hfirst := recheck_rechecked hdb₁ key
        rcases ih h with hsame | hnext
        · exact Or.inr (hfirst.congr_right hsame)
        · exact Or.inr (hfirst.trans hnext)
      · exact ih h

theorem Rechecked.sameOn_or_decided {peerSet : PeerSet} {db db' : MetaDb}
    {key : MetaKey} (h : Rechecked peerSet db db' key) :
    SameOn db db' key ∨ db.consensusValues.get? key = none ∧
      ∃ value, Decided db.keyValueVotes peerSet db' key value := by
  cases h with
  | skipped _ hsame => exact Or.inl hsame
  | undecided _ _ hsame => exact Or.inl hsame
  | decided value hfree _ henough hvalue hpending hvotes =>
      rw [← card_standBy] at henough
      refine Or.inr ⟨hfree, value, henough, hvalue, hpending, fun k hk => ?_⟩
      rw [hvotes, if_pos hk]

theorem processEffects_changesByQuorum {E : Type} {exclusive : Bool}
    {peerSet : PeerSet} {effects : List (ModuleCItemEffect E)} {db db' : MetaDb}
    (h : db.processEffects exclusive peerSet effects = .ok db') :
    ChangesByQuorum db.keyValueVotes peerSet
      (fun key => db'.consensusValues.get? key = db.consensusValues.get? key) db db' := by
  have hkeys : ∀ key, SameOn db db' key ∨ db.consensusValues.get? key = none ∧
      ∃ value, Decided db.keyValueVotes peerSet db' key value := by
    intro key
    rcases processEffects_keys h key with hsame | hchecked
    · exact Or.inl hsame
    · exact hchecked.sameOn_or_decided
  constructor
  · intro key hne
    rcases hkeys key with hsame | ⟨_, hdecided⟩
    · exact absurd hsame.value hne
    · exact hdecided
  · intro key hstill
    rcases hkeys key with hsame | ⟨hfree, value, hdecided⟩
    · exact hsame
    · rw [hdecided.value, hfree] at hstill
      cases hstill

end MetaDb

namespace MetaModule

open MetaDb

/-- Processing a citem of a voter changes agreed values only by a quorum of the members
given, the vote just cast included, and leaves all keys but that of the vote alone. The
rechecks after a removal change them only by a quorum of the members that stay, and
leave all keys alone whose value stays. -/
theorem values_change_by_quorum {E : Type} (m : MetaModule) (peerSet : PeerSet) :
    (∀ voter citem, ChangesByQuorum (m.db.standingVotes voter citem) peerSet
      (fun key => ∀ vote ∈ m.db.castVote citem, key ≠ vote.1) m.db
      (m.step false (.processCitem voter peerSet citem : MetaOp E)).db) ∧
    ∀ effects : List (ModuleCItemEffect E), ChangesByQuorum m.db.keyValueVotes peerSet
      (fun key => (m.step false (.processEffects peerSet effects)).db.consensusValues.get?
        key = m.db.consensusValues.get? key) m.db
      (m.step false (.processEffects peerSet effects)).db := by
  constructor
  · intro voter citem
    rcases hres : m.processCitem false voter peerSet citem with f | ⟨m', effects⟩
    · have hstep : m.step false (.processCitem voter peerSet citem : MetaOp E) = m := by
        simp only [step, tryStep, hres]
        rfl
      rw [hstep]
      exact .refl _ _ _ _
    · have hstep : m.step false (.processCitem voter peerSet citem : MetaOp E) = m' := by
        simp only [step, tryStep, hres]
        rfl
      obtain ⟨key, value, hcast, hvote⟩ := processCitem_vote hres
      have hlaw := hvote.changesByQuorum
      rw [hstep, standingVotes, hcast]
      exact ⟨hlaw.decided, fun k hk => hlaw.frame k (hk (key, value) rfl)⟩
  · intro effects
    rcases hres : m.db.processEffects false peerSet effects with f | db
    · have hstep : m.step false (.processEffects peerSet effects) = m := by
        simp only [step, tryStep, hres]
        rfl
      rw [hstep]
      exact .refl _ _ _ _
    · have hstep : (m.step false (.processEffects peerSet effects)).db = db := by
        simp only [step, tryStep, hres]
        rfl
      rw [hstep]
      exact processEffects_changesByQuorum hres

end MetaModule

end Bfte
