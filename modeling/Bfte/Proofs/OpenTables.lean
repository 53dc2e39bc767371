import Bfte.Proofs.MetaVotes

/-!
# Tables that are opened while they are open

What an exclusive store refuses. Two functions of `meta` hold a handle on a table
and open the table once more: the approval of a vote, which looks the vote up in
the scrutinee of the `match` that records it, and the recheck, which reads the
tables that it writes when it finds a winner. Everything else is done with one
handle on a table at a time, so it is known exactly when the store refuses.
-/

namespace Bfte

/-- The call opened a table that was open already. -/
def OpensTwice {α : Type} (x : Outcome DbTxError α) : Prop :=
  ∃ table, x = .error (.err (.tableAlreadyOpen table))

section

variable {α β : Type}

instance (x : Outcome DbTxError α) : Decidable (OpensTwice x) :=
  match x with
  | .ok _ => .isFalse fun ⟨_, h⟩ => by cases h
  | .error (.panic _) => .isFalse fun ⟨_, h⟩ => by cases h
  | .error (.err (.txError _)) => .isFalse fun ⟨_, h⟩ => by cases h
  | .error (.err (.tableAlreadyOpen table)) => .isTrue ⟨table, rfl⟩

theorem opensTwice_bind {x : Outcome DbTxError α} {f : α → Outcome DbTxError β} :
    OpensTwice (x >>= f) ↔ OpensTwice x ∨ ∃ a, x = .ok a ∧ OpensTwice (f a) := by
  cases x with
  | ok a =>
      constructor
      · intro h
        exact Or.inr ⟨a, rfl, h⟩
      · rintro (⟨_, h⟩ | ⟨_, ha, h⟩)
        · cases h
        · cases ha
          exact h
  | error e =>
      constructor
      · rintro ⟨table, h⟩
        injection h with h
        exact Or.inl ⟨table, congrArg Except.error h⟩
      · rintro (⟨table, h⟩ | ⟨_, ha, _⟩)
        · injection h with h
          exact ⟨table, congrArg Except.error h⟩
        · cases ha

@[simp] theorem not_opensTwice_ok {a : α} :
    ¬ OpensTwice (.ok a : Outcome DbTxError α) := by
  rintro ⟨_, h⟩
  cases h

@[simp] theorem not_opensTwice_pure {a : α} :
    ¬ OpensTwice (pure a : Outcome DbTxError α) := not_opensTwice_ok

@[simp] theorem not_opensTwice_crash {msg : String} :
    ¬ OpensTwice (Outcome.crash msg : Outcome DbTxError α) := by
  rintro ⟨_, h⟩
  cases h

@[simp] theorem not_opensTwice_txError {source : String} :
    ¬ OpensTwice (Outcome.raise (.txError source) : Outcome DbTxError α) := by
  rintro ⟨_, h⟩
  cases h

@[simp] theorem not_opensTwice_assertThat {p : Prop} [Decidable p] {msg : String} :
    ¬ OpensTwice (Outcome.assertThat p msg : Outcome DbTxError Unit) := by
  by_cases h : p <;> simp [Outcome.assertThat, h]

@[simp] theorem not_opensTwice_toNumPeers {len : ℕ} :
    ¬ OpensTwice (toNumPeers len : Outcome DbTxError NumPeers) := by
  unfold toNumPeers
  split <;> simp

@[simp] theorem opensTwice_openTable {exclusive : Bool} {live : List MetaTable}
    {table : MetaTable} :
    OpensTwice (openTable exclusive live table) ↔
      exclusive = true ∧ table ∈ live := by
  rw [openTable, Outcome.ensure]
  by_cases h : exclusive = true → table ∉ live
  · rw [if_pos h]
    refine iff_of_false (fun ht => ?_) fun ht => h ht.1 ht.2
    obtain ⟨_, ht⟩ := ht
    cases ht
  · rw [if_neg h]
    push Not at h
    exact iff_of_true ⟨table, rfl⟩ h

end

namespace MetaDb

/-! ## A vote -/

theorem opensTwice_vote {live : List MetaTable} {db : MetaDb} {voter : PeerPubkey}
    {peerSet : PeerSet} {key : MetaKey} {value : MetaValue}
    (h : live ⊆ [.keyValueVotes]) :
    OpensTwice (db.processCitemVoteKeyValue true live voter peerSet key value) ↔
      MetaTable.keyValueVotes ∈ live := by
  rw [processCitemVoteKeyValue, opensTwice_bind, opensTwice_openTable]
  refine ⟨fun hor => hor.elim And.right fun hlater => ?_, fun hmem => Or.inl ⟨rfl, hmem⟩⟩
  obtain ⟨live', hopen, hrest⟩ := hlater
  obtain ⟨hfree, rfl⟩ := openTable_eq_ok.mp hopen
  exfalso
  split at hrest
  · exact not_opensTwice_pure hrest
  · obtain hcrash | ⟨_, _, hrest⟩ := opensTwice_bind.mp hrest
    · exact not_opensTwice_toNumPeers hcrash
    · split at hrest
      · -- the tables that are written are not those that are read
        have hother : ∀ table, table ≠ MetaTable.keyValueVotes →
            table ∉ MetaTable.keyValueVotes :: live := by
          intro table hne hmem
          rcases List.mem_cons.mp hmem with heq | hmem
          · exact hne heq
          · exact hne (List.mem_singleton.mp (h hmem))
        obtain hpending | ⟨_, _, hrest⟩ := opensTwice_bind.mp hrest
        · exact hother _ (by decide) (opensTwice_openTable.mp hpending).2
        · obtain hvalues | ⟨_, _, hrest⟩ := opensTwice_bind.mp hrest
          · exact hother _ (by decide) (opensTwice_openTable.mp hvalues).2
          · exact not_opensTwice_pure hrest
      · exact not_opensTwice_pure hrest

/-- An approval does so if there is something to approve. -/
theorem opensTwice_approve {db : MetaDb} {voter : PeerPubkey} {peerSet : PeerSet}
    {key : MetaKey} {approvedPeer : PeerPubkey} :
    OpensTwice (db.processCitemApproveVote true [] voter peerSet key approvedPeer) ↔
      (db.keyValueVotes.get? (toLex (key, approvedPeer))).isSome = true := by
  have hopen : openTable true [] .keyValueVotes = .ok [.keyValueVotes] :=
    openTable_eq_ok.mpr ⟨fun _ => List.not_mem_nil, rfl⟩
  rw [processCitemApproveVote, Outcome.bind_of_ok hopen]
  cases hvote : db.keyValueVotes.get? (toLex (key, approvedPeer)) with
  | some value =>
      refine iff_of_true ((opensTwice_vote (List.Subset.refl _)).mpr ?_) rfl
      exact List.mem_singleton_self _
  | none => exact iff_of_false not_opensTwice_txError Bool.noConfusion

/-! ## The recheck -/

/-- A value that the recheck would take for a key. -/
def HasWinner (db : MetaDb) (peerSet : PeerSet) (key : MetaKey) : Prop :=
  db.consensusValues.get? key = none ∧
    ∃ value, 0 < db.countVotes peerSet key value ∧
      (NumPeers.mk peerSet.len).threshold ≤ db.countVotes peerSet key value

/-- How a recheck ends in an exclusive store: it has written nothing, or found a
winner and opened a table again, or there are too many peers to count. -/
inductive Ends (db : MetaDb) (peerSet : PeerSet) (winner : Prop) :
    Outcome DbTxError MetaDb → Prop
  | unchanged (hno : peerSet.len ≤ 255 → ¬ winner) :
      Ends db peerSet winner (.ok db)
  | refused (x : Outcome DbTxError MetaDb) (htwice : OpensTwice x)
      (hsize : peerSet.len ≤ 255) (hwin : winner) : Ends db peerSet winner x
  | crashed (msg : String) (hsize : 255 < peerSet.len) :
      Ends db peerSet winner (.error (.panic msg))

theorem Ends.opensTwice_iff {db : MetaDb} {peerSet : PeerSet} {winner : Prop}
    {x : Outcome DbTxError MetaDb} (h : Ends db peerSet winner x) :
    OpensTwice x ↔ peerSet.len ≤ 255 ∧ winner := by
  cases h with
  | unchanged hno => exact iff_of_false not_opensTwice_ok fun h => hno h.1 h.2
  | refused _ htwice hsize hwin => exact iff_of_true htwice ⟨hsize, hwin⟩
  | crashed msg hsize =>
      exact iff_of_false not_opensTwice_crash fun h => absurd h.1 (not_le.mpr hsize)

/-- One recheck after another. -/
theorem Ends.bind {db : MetaDb} {peerSet : PeerSet} {winner winner' : Prop}
    {x : Outcome DbTxError MetaDb} {f : MetaDb → Outcome DbTxError MetaDb}
    (hx : Ends db peerSet winner x) (hf : Ends db peerSet winner' (f db)) :
    Ends db peerSet (winner ∨ winner') (x >>= f) := by
  cases hx with
  | unchanged hno =>
      rw [Outcome.bind_of_ok rfl]
      generalize f db = y at hf
      cases hf with
      | unchanged hno' =>
          exact .unchanged fun hsize => not_or_intro (hno hsize) (hno' hsize)
      | refused _ htwice hsize hwin => exact .refused _ htwice hsize (Or.inr hwin)
      | crashed msg hsize => exact .crashed msg hsize
  | refused _ htwice hsize hwin =>
      exact .refused _ (opensTwice_bind.mpr (Or.inl htwice)) hsize (Or.inl hwin)
  | crashed msg hsize => exact .crashed msg hsize

/-- The tables of the recheck are open when it gets to a key. -/
theorem recheckKey_ends (db : MetaDb) (peerSet : PeerSet) (key : MetaKey) :
    Ends db peerSet (db.HasWinner peerSet key)
      (db.recheckKey true [.consensusValues, .keyValueVotes] peerSet key) := by
  unfold recheckKey
  split
  · next hdecided =>
      refine .unchanged fun _ hwin => ?_
      rw [hwin.1] at hdecided
      cases hdecided
  · next hfree =>
      have hnone : db.consensusValues.get? key = none :=
        Option.not_isSome_iff_eq_none.mp hfree
      by_cases hsize : peerSet.len ≤ 255
      · rw [Outcome.bind_of_ok (toNumPeers_of_le hsize)]
        split
        · next value count hfind =>
            have hopen : OpensTwice
                (openTable true [.consensusValues, .keyValueVotes]
                  .consensusValues) :=
              opensTwice_openTable.mpr ⟨rfl, List.mem_cons_self⟩
            refine .refused _ (opensTwice_bind.mpr (Or.inl hopen)) hsize ?_
            exact ⟨hnone, value, of_find?_valueCounts hfind⟩
        · next hfind =>
            refine .unchanged fun _ ⟨_, value, hpos, henough⟩ => ?_
            have hfew := find?_valueCounts_eq_none.mp hfind value hpos
            exact absurd henough (not_le.mpr hfew)
      · obtain ⟨msg, hmsg⟩ :=
          (panicked_toNumPeers (ε := DbTxError)).mpr (not_le.mp hsize)
        rw [hmsg]
        exact .crashed msg (not_le.mp hsize)

theorem recheckKeys_ends (db : MetaDb) (peerSet : PeerSet) (keys : List MetaKey) :
    Ends db peerSet (∃ key ∈ keys, db.HasWinner peerSet key)
      (db.recheckKeys true [.consensusValues, .keyValueVotes] peerSet keys) := by
  induction keys with
  | nil =>
      refine .unchanged fun _ ⟨_, hmem, _⟩ => ?_
      cases hmem
  | cons key keys ih =>
      simp only [List.exists_mem_cons_iff]
      exact (recheckKey_ends db peerSet key).bind ih

theorem recheck_ends (db : MetaDb) (peerSet : PeerSet) :
    Ends db peerSet (∃ key, db.HasWinner peerSet key)
      (db.recheckConsensusAfterPeerRemoval true [] peerSet) := by
  have hkeys : (∃ key ∈ db.keysWithVotes, db.HasWinner peerSet key) ↔
      ∃ key, db.HasWinner peerSet key := by
    refine exists_congr fun key => and_iff_right_of_imp fun hwin => ?_
    obtain ⟨_, value, hpos, _⟩ := hwin
    obtain ⟨voter, hvote, _⟩ := countVotes_pos.mp hpos
    exact mem_keysWithVotes.mpr ⟨voter, by rw [hvote]; rfl⟩
  rw [← hkeys]
  exact recheckKeys_ends db peerSet db.keysWithVotes

/-- Every removal among the effects leads to a recheck. -/
theorem processEffects_ends {E : Type} (db : MetaDb) (peerSet : PeerSet)
    (effects : List (ModuleCItemEffect E)) :
    Ends db peerSet (effects.any removesPeer = true ∧
        ∃ key, db.HasWinner peerSet key)
      (db.processEffects true peerSet effects) := by
  induction effects with
  | nil =>
      refine .unchanged fun _ h => ?_
      cases h.1
  | cons effect effects ih =>
      rw [processEffects, List.any_cons]
      cases hremoves : removesPeer effect with
      | true =>
          have hboth := (recheck_ends db peerSet).bind (f := fun db =>
            db.processEffects true peerSet effects) ih
          rw [or_iff_left_of_imp And.right] at hboth
          rw [Bool.true_or, and_iff_right rfl]
          exact hboth
      | false =>
          rw [Bool.false_or]
          exact ih

end MetaDb

namespace MetaModule

/-- A citem approves a vote that has been cast. -/
def ApprovesVote (m : MetaModule) : Option MetaCitem → Prop
  | some (.approveVote key peer) =>
      (m.db.keyValueVotes.get? (toLex (key, peer))).isSome = true
  | _ => False

theorem not_opensTwice_refresh {m : MetaModule} :
    ¬ OpensTwice (m.refreshConsensusProposalsDbtx true []) := by
  have hpending : openTable true [] .pendingProposals = .ok [.pendingProposals] :=
    openTable_eq_ok.mpr ⟨fun _ => List.not_mem_nil, rfl⟩
  have hvotes : openTable true [.pendingProposals] .keyValueVotes =
      .ok [.keyValueVotes, .pendingProposals] :=
    openTable_eq_ok.mpr ⟨fun _ => by decide, rfl⟩
  rw [refreshConsensusProposalsDbtx, Outcome.bind_of_ok hpending,
    Outcome.bind_of_ok hvotes]
  exact not_opensTwice_pure

theorem opensTwice_processCitem {m : MetaModule} {voter : PeerPubkey}
    {peerSet : PeerSet} {citem : Option MetaCitem} :
    OpensTwice (m.processCitem true voter peerSet citem) ↔
      peerSet.contains voter = true ∧ m.ApprovesVote citem := by
  by_cases hvoter : peerSet.contains voter = true
  swap
  · rw [processCitem, opensTwice_bind]
    refine iff_of_false ?_ fun h => hvoter h.1
    rintro (h | ⟨_, h, _⟩)
    · exact not_opensTwice_assertThat h
    · exact hvoter (Outcome.assertThat_eq_ok.mp h)
  rw [processCitem, Outcome.bind_of_ok (Outcome.assertThat_of hvoter),
    and_iff_right hvoter, opensTwice_bind, or_iff_left]
  swap
  · -- nothing is open any more when the proposals are computed
    rintro ⟨r, _, hr⟩
    obtain hr | ⟨_, _, hr⟩ := opensTwice_bind.mp hr
    · exact not_opensTwice_refresh hr
    · exact not_opensTwice_pure hr
  cases citem with
  | none => exact iff_of_false not_opensTwice_txError not_false
  | some citem =>
      cases citem with
      | proposeValue key value =>
          have hvote : OpensTwice (m.db.processCitemVoteKeyValue true [] voter
              peerSet key value) ↔ MetaTable.keyValueVotes ∈ [] :=
            MetaDb.opensTwice_vote (List.nil_subset _)
          exact iff_of_false (fun h => List.not_mem_nil (hvote.mp h)) not_false
      | approveVote key peer => exact MetaDb.opensTwice_approve

/-- Neither a citem nor the effects of one open a table that is open. -/
def OpensNothingTwice {E : Type} (m : MetaModule) (voter : PeerPubkey)
    (peerSet : PeerSet) (citem : Option MetaCitem)
    (effects : List (ModuleCItemEffect E)) : Prop :=
  ¬ OpensTwice (m.processCitem true voter peerSet citem) ∧
    ¬ OpensTwice (m.db.processEffects true peerSet effects)

/-- This is so unless a vote is approved that has been cast, or a member goes and
a key without a value now has votes enough for one. -/
theorem opensNothingTwice_iff {E : Type} (m : MetaModule) (voter : PeerPubkey)
    (peerSet : PeerSet) (citem : Option MetaCitem)
    (effects : List (ModuleCItemEffect E)) :
    m.OpensNothingTwice voter peerSet citem effects ↔
      ¬ (peerSet.contains voter = true ∧ m.ApprovesVote citem) ∧
        ¬ (peerSet.len ≤ 255 ∧ effects.any MetaDb.removesPeer = true ∧
          ∃ key, m.db.HasWinner peerSet key) := by
  rw [OpensNothingTwice, opensTwice_processCitem,
    (MetaDb.processEffects_ends m.db peerSet effects).opensTwice_iff]

/-- Of two members one asks for a value, and the other approves of it. -/
theorem approval_opens_votes_twice :
    ¬ ((start (some 2)).run (E := Empty) true
        [.processCitem 1 ⟨[1, 2]⟩ (some (.proposeValue 0 [7]))]).OpensNothingTwice
      (E := Empty) 2 ⟨[1, 2]⟩ (some (.approveVote 0 1)) [] := by
  rintro ⟨h, _⟩
  refine h ?_
  decide +kernel

end MetaModule

end Bfte
