import Bfte.App.MetaModule

/-!
# Counting votes on a value

The votes on a key are read off a range of the table, and a voter occurs in it at
most once. So the votes of a peer set for a value can be compared by comparing who
voted, and the map of counts that the recheck builds holds just these numbers.
-/

namespace Bfte

namespace MetaDb

/-! ## The votes on a key -/

@[simp] theorem mem_votesForKey {db : MetaDb} {key : MetaKey} {voter : PeerPubkey}
    {value : MetaValue} : (voter, value) ∈ db.votesForKey key ↔
      db.keyValueVotes.get? (toLex (key, voter)) = some value := by
  rw [votesForKey, List.mem_filterMap, ← SortedTable.mem_entries]
  constructor
  · rintro ⟨⟨keyVoter, vote⟩, hmem, h⟩
    dsimp only at h
    split at h
    · next hkey =>
        cases h
        rw [← hkey]
        exact hmem
    · cases h
  · intro hmem
    exact ⟨_, hmem, if_pos rfl⟩

theorem votesForKey_nodup (db : MetaDb) (key : MetaKey) :
    ((db.votesForKey key).map Prod.fst).Nodup := by
  rw [votesForKey, List.map_filterMap]
  refine db.keyValueVotes.sorted.filterMap _ ?_
  intro e e' hlt voter he voter' he' heq
  have hkey : ∀ {x : (MetaKey ×ₗ PeerPubkey) × MetaValue} {v : PeerPubkey},
      ((if (ofLex x.1).1 = key then some ((ofLex x.1).2, x.2) else none).map
        Prod.fst) = some v → x.1 = toLex (key, v) := by
    intro x v hx
    split at hx
    · next hk =>
        rw [← hk, ← Option.some.inj hx]
        rfl
    · cases hx
  have hsame : e.1 = e'.1 := by
    rw [hkey he, hkey he', heq]
  exact absurd hsame (ne_of_lt hlt)

/-- The members of a peer set that vote for a value. -/
def supporters (db : MetaDb) (peerSet : PeerSet) (key : MetaKey)
    (value : MetaValue) : List PeerPubkey :=
  ((db.votesForKey key).filter fun (voter, vote) =>
    decide (vote = value) && peerSet.contains voter).map Prod.fst

theorem countVotes_eq (db : MetaDb) (peerSet : PeerSet) (key : MetaKey)
    (value : MetaValue) :
    db.countVotes peerSet key value = (db.supporters peerSet key value).length := by
  rw [supporters, List.length_map, countVotes, List.countP_eq_length_filter]

theorem mem_supporters {db : MetaDb} {peerSet : PeerSet} {key : MetaKey}
    {value : MetaValue} {voter : PeerPubkey} :
    voter ∈ db.supporters peerSet key value ↔
      db.keyValueVotes.get? (toLex (key, voter)) = some value ∧
        peerSet.contains voter = true := by
  rw [supporters, List.mem_map]
  constructor
  · rintro ⟨⟨v, vote⟩, hmem, rfl⟩
    obtain ⟨hvote, hp⟩ := List.mem_filter.mp hmem
    obtain ⟨hval, hin⟩ := Bool.and_eq_true_iff.mp hp
    rw [← of_decide_eq_true hval]
    exact ⟨mem_votesForKey.mp hvote, hin⟩
  · rintro ⟨hvote, hin⟩
    refine ⟨(voter, value), List.mem_filter.mpr ⟨mem_votesForKey.mpr hvote, ?_⟩, rfl⟩
    exact Bool.and_eq_true_iff.mpr ⟨decide_eq_true rfl, hin⟩

theorem supporters_nodup (db : MetaDb) (peerSet : PeerSet) (key : MetaKey)
    (value : MetaValue) : (db.supporters peerSet key value).Nodup :=
  (db.votesForKey_nodup key).sublist (List.filter_sublist.map _)

/-- Whoever votes for the value here does so there. -/
theorem countVotes_le {db db' : MetaDb} {peerSet peerSet' : PeerSet}
    {key : MetaKey} {value : MetaValue}
    (h : ∀ voter, db'.keyValueVotes.get? (toLex (key, voter)) = some value →
      peerSet'.contains voter = true →
      db.keyValueVotes.get? (toLex (key, voter)) = some value ∧
        peerSet.contains voter = true) :
    db'.countVotes peerSet' key value ≤ db.countVotes peerSet key value := by
  rw [countVotes_eq, countVotes_eq]
  refine (List.subperm_of_subset (db'.supporters_nodup peerSet' key value) ?_).length_le
  intro voter hvoter
  obtain ⟨hvote, hin⟩ := mem_supporters.mp hvoter
  exact mem_supporters.mpr (h voter hvote hin)

theorem countVotes_pos {db : MetaDb} {peerSet : PeerSet} {key : MetaKey}
    {value : MetaValue} : 0 < db.countVotes peerSet key value ↔
      ∃ voter, db.keyValueVotes.get? (toLex (key, voter)) = some value ∧
        peerSet.contains voter = true := by
  rw [countVotes_eq, List.length_pos_iff_exists_mem]
  simp only [mem_supporters]

theorem mem_keysWithVotes {db : MetaDb} {key : MetaKey} : key ∈ db.keysWithVotes ↔
    ∃ voter, (db.keyValueVotes.get? (toLex (key, voter))).isSome = true := by
  rw [keysWithVotes, List.mem_dedup, List.mem_map]
  constructor
  · rintro ⟨e, hmem, rfl⟩
    refine ⟨(ofLex e.1).2, ?_⟩
    rw [Prod.mk.eta, toLex_ofLex, SortedTable.mem_entries'.mp hmem]
    rfl
  · rintro ⟨voter, hvote⟩
    obtain ⟨value, hvalue⟩ := Option.isSome_iff_exists.mp hvote
    exact ⟨_, SortedTable.mem_entries.mpr hvalue, rfl⟩

/-! ## The map of counts -/

theorem get?_valueCounts {db : MetaDb} {peerSet : PeerSet} {key : MetaKey}
    {value : MetaValue} {n : ℕ} :
    (db.valueCounts peerSet key).get? value = some n ↔
      n = db.countVotes peerSet key value ∧ 0 < n := by
  have hcount : ((db.votesForKey key).filterMap fun (voter, value) =>
      if peerSet.contains voter then some value else none).count value =
      db.countVotes peerSet key value := by
    rw [List.count_filterMap, countVotes]
    refine List.countP_congr fun e _ => ?_
    obtain ⟨voter, vote⟩ := e
    cases hin : peerSet.contains voter <;> simp [hin]
  rw [valueCounts, SortedTable.get?_counts_eq_some, hcount]

/-- The recheck takes a value that enough members vote for. -/
theorem of_find?_valueCounts {db : MetaDb} {peerSet : PeerSet} {key : MetaKey}
    {n count : ℕ} {value : MetaValue}
    (h : ((db.valueCounts peerSet key).entries.find? fun (_, count) =>
      decide (n ≤ count)) = some (value, count)) :
    0 < db.countVotes peerSet key value ∧ n ≤ db.countVotes peerSet key value := by
  obtain ⟨hcount, hpos⟩ := get?_valueCounts.mp
    (SortedTable.mem_entries.mp (List.mem_of_find?_eq_some h))
  have hn : n ≤ count := by
    simpa using List.find?_some h
  rw [← hcount]
  exact ⟨hpos, hn⟩

/-- If it takes none, no value has enough. -/
theorem find?_valueCounts_eq_none {db : MetaDb} {peerSet : PeerSet}
    {key : MetaKey} {n : ℕ} :
    ((db.valueCounts peerSet key).entries.find? fun (_, count) =>
      decide (n ≤ count)) = none ↔
      ∀ value, 0 < db.countVotes peerSet key value →
        db.countVotes peerSet key value < n := by
  rw [List.find?_eq_none]
  constructor
  · intro h value hpos
    have hmem := SortedTable.mem_entries.mpr (get?_valueCounts.mpr ⟨rfl, hpos⟩)
    simpa using h _ hmem
  · intro h e hmem
    obtain ⟨hcount, hpos⟩ := get?_valueCounts.mp (SortedTable.mem_entries'.mp hmem)
    rw [hcount] at hpos
    have hfew := h e.1 hpos
    rw [← hcount] at hfew
    simpa using hfew

/-! ## Taking the votes on a key away -/

theorem get?_clearVotes (db : MetaDb) (peerSet : PeerSet) (key k : MetaKey)
    (voter : PeerPubkey) :
    (db.clearVotes peerSet key).keyValueVotes.get? (toLex (k, voter)) =
      if k = key ∧ peerSet.contains voter = true then none
      else db.keyValueVotes.get? (toLex (k, voter)) := by
  rw [clearVotes, SortedTable.get?_retain]
  by_cases hgone : k = key ∧ peerSet.contains voter = true
  · rw [if_pos hgone]
    refine Option.filter_eq_none_iff.mpr fun _ _ => ?_
    simp [hgone.1, hgone.2]
  · rw [if_neg hgone]
    cases db.keyValueVotes.get? (toLex (k, voter)) with
    | none => rfl
    | some vote =>
        refine Option.filter_some_pos ?_
        by_cases hk : k = key
        · have hin : peerSet.contains voter = false := by
            simpa using fun hin => hgone ⟨hk, hin⟩
          simp [hin]
        · simp [hk]

@[simp] theorem clearVotes_consensusValues (db : MetaDb) (peerSet : PeerSet)
    (key : MetaKey) :
    (db.clearVotes peerSet key).consensusValues = db.consensusValues := rfl

@[simp] theorem clearVotes_pendingProposals (db : MetaDb) (peerSet : PeerSet)
    (key : MetaKey) :
    (db.clearVotes peerSet key).pendingProposals = db.pendingProposals := rfl

/-- No member's vote on the key is left to count. -/
theorem countVotes_eq_zero {db : MetaDb} {peerSet : PeerSet} {key : MetaKey}
    (h : ∀ voter, peerSet.contains voter = true →
      db.keyValueVotes.get? (toLex (key, voter)) = none) (value : MetaValue) :
    db.countVotes peerSet key value = 0 := by
  by_contra hne
  obtain ⟨voter, hvote, hin⟩ := countVotes_pos.mp (Nat.pos_of_ne_zero hne)
  rw [h voter hin] at hvote
  cases hvote

end MetaDb

/-! ## Opening tables -/

@[simp] theorem openTable_eq_ok {exclusive : Bool} {live live' : List MetaTable}
    {table : MetaTable} : openTable exclusive live table = .ok live' ↔
      (exclusive = true → table ∉ live) ∧ live' = table :: live := by
  simp only [openTable, Outcome.bind_eq_ok, Outcome.ensure_eq_ok,
    Outcome.pure_eq_ok, exists_const, eq_comm (a := live')]

/-- A store that lends a table out any number of times. -/
@[simp] theorem openTable_false (live : List MetaTable) (table : MetaTable) :
    openTable false live table = .ok (table :: live) :=
  openTable_eq_ok.mpr ⟨fun h => Bool.noConfusion h, rfl⟩

namespace MetaDb

/-! ## What a vote does -/

/-- What a vote for a value does when it is processed. -/
inductive VoteCase (db : MetaDb) (voter : PeerPubkey) (peerSet : PeerSet)
    (key : MetaKey) (value : MetaValue) :
    MetaDb → List KeyValueConsensusEffect → Prop
  | repeated
      (hsame : db.keyValueVotes.get? (toLex (key, voter)) = some value) :
      VoteCase db voter peerSet key value db []
  | recorded (db' : MetaDb)
      (hnew : db.keyValueVotes.get? (toLex (key, voter)) ≠ some value)
      (hsize : peerSet.len ≤ 255)
      (hdb : db' = { db with
        keyValueVotes := db.keyValueVotes.insert (toLex (key, voter)) value })
      (hfew : db'.countVotes peerSet key value <
        (NumPeers.mk peerSet.len).threshold) :
      VoteCase db voter peerSet key value db' []
  | decided (db₁ : MetaDb)
      (hnew : db.keyValueVotes.get? (toLex (key, voter)) ≠ some value)
      (hsize : peerSet.len ≤ 255)
      (hvotes : db₁.keyValueVotes =
        db.keyValueVotes.insert (toLex (key, voter)) value)
      (hvalues : db₁.consensusValues = db.consensusValues.insert key value)
      (hpending : db₁.pendingProposals = db.pendingProposals.remove key)
      (henough : (NumPeers.mk peerSet.len).threshold ≤
        db₁.countVotes peerSet key value) :
      VoteCase db voter peerSet key value (db₁.clearVotes peerSet key)
        [⟨key, value⟩]

theorem processCitemVoteKeyValue_cases {exclusive : Bool} {live : List MetaTable}
    {db db' : MetaDb} {voter : PeerPubkey} {peerSet : PeerSet} {key : MetaKey}
    {value : MetaValue} {effects : List KeyValueConsensusEffect}
    (h : db.processCitemVoteKeyValue exclusive live voter peerSet key value =
      .ok (db', effects)) : VoteCase db voter peerSet key value db' effects := by
  simp only [processCitemVoteKeyValue, Outcome.bind_eq_ok] at h
  obtain ⟨_, _, h⟩ := h
  split at h
  · next hsame =>
      cases h
      exact .repeated hsame
  · next hnew =>
      simp only [Outcome.bind_eq_ok, toNumPeers_eq_ok] at h
      obtain ⟨_, ⟨hsize, rfl⟩, h⟩ := h
      split at h
      · next henough =>
          simp only [Outcome.bind_eq_ok] at h
          obtain ⟨_, _, _, _, h⟩ := h
          cases h
          exact .decided ⟨_, _, _⟩ hnew hsize rfl rfl rfl henough
      · next hfew =>
          cases h
          exact .recorded _ hnew hsize rfl (not_le.mp hfew)

/-- The vote a citem casts: for the value it names, or that of the peer it approves. -/
def castVote (db : MetaDb) : Option MetaCitem → Option (MetaKey × MetaValue)
  | some (.proposeValue key value) => some (key, value)
  | some (.approveVote key approvedPeer) =>
      (db.keyValueVotes.get? (toLex (key, approvedPeer))).map fun value => (key, value)
  | none => none

end MetaDb

/-- A citem that is processed is a vote for a value. -/
theorem MetaModule.processCitem_vote {exclusive : Bool} {m m' : MetaModule}
    {voter : PeerPubkey} {peerSet : PeerSet} {citem : Option MetaCitem}
    {effects : List KeyValueConsensusEffect}
    (h : m.processCitem exclusive voter peerSet citem = .ok (m', effects)) :
    ∃ key value, m.db.castVote citem = some (key, value) ∧
      MetaDb.VoteCase m.db voter peerSet key value m'.db effects := by
  simp only [MetaModule.processCitem, Outcome.bind_eq_ok] at h
  obtain ⟨_, _, ⟨db, _⟩, hdb, _, _, h⟩ := h
  cases h
  cases citem with
  | none => cases hdb
  | some citem =>
      cases citem with
      | proposeValue key value =>
          exact ⟨key, value, rfl, MetaDb.processCitemVoteKeyValue_cases hdb⟩
      | approveVote key approvedPeer =>
          simp only [MetaDb.applyCitem, MetaDb.processCitemApproveVote,
            Outcome.bind_eq_ok] at hdb
          obtain ⟨_, _, hdb⟩ := hdb
          split at hdb
          · next value hvalue =>
              refine ⟨key, value, ?_, MetaDb.processCitemVoteKeyValue_cases hdb⟩
              rw [MetaDb.castVote, hvalue]
              rfl
          · cases hdb

end Bfte
