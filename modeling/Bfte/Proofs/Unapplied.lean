import Bfte.Proofs.MetaVotes

/-!
# Values with votes enough

A vote that gives a value enough members decides the key, and the recheck after a
removal decides the keys that have no value yet. The recheck passes over a key that
has a value, though fewer members may now be enough for another one. So a value with
votes enough is applied as long as no removal is of this kind.
-/

namespace Bfte

namespace MetaDb

/-! ## What the recheck does to a key -/

/-- Nothing that concerns a key has changed. -/
structure SameOn (db db' : MetaDb) (key : MetaKey) : Prop where
  votes : ∀ voter, db'.keyValueVotes.get? (toLex (key, voter)) =
    db.keyValueVotes.get? (toLex (key, voter))
  value : db'.consensusValues.get? key = db.consensusValues.get? key
  pending : db'.pendingProposals.get? key = db.pendingProposals.get? key

theorem SameOn.refl (db : MetaDb) (key : MetaKey) : SameOn db db key :=
  ⟨fun _ => rfl, rfl, rfl⟩

theorem SameOn.trans {db db₁ db₂ : MetaDb} {key : MetaKey}
    (h : SameOn db db₁ key) (h' : SameOn db₁ db₂ key) : SameOn db db₂ key :=
  ⟨fun voter => (h'.votes voter).trans (h.votes voter), h'.value.trans h.value,
    h'.pending.trans h.pending⟩

theorem SameOn.countVotes {db db' : MetaDb} {key : MetaKey}
    (h : SameOn db db' key) (peerSet : PeerSet) (value : MetaValue) :
    db'.countVotes peerSet key value = db.countVotes peerSet key value := by
  refine Nat.le_antisymm (countVotes_le fun voter hvote hin => ?_)
    (countVotes_le fun voter hvote hin => ?_)
  · exact ⟨(h.votes voter).symm.trans hvote, hin⟩
  · exact ⟨(h.votes voter).trans hvote, hin⟩

/-- What the recheck of a key does. -/
inductive Rechecked (peerSet : PeerSet) (db db' : MetaDb) (key : MetaKey) : Prop
  | skipped (hdecided : (db.consensusValues.get? key).isSome = true)
      (hsame : SameOn db db' key)
  | undecided (hfree : db.consensusValues.get? key = none)
      (hfew : ∀ value, 0 < db.countVotes peerSet key value →
        db.countVotes peerSet key value < (NumPeers.mk peerSet.len).threshold)
      (hsame : SameOn db db' key)
  | decided (value : MetaValue) (hfree : db.consensusValues.get? key = none)
      (hpos : 0 < db.countVotes peerSet key value)
      (henough : (NumPeers.mk peerSet.len).threshold ≤
        db.countVotes peerSet key value)
      (hvalue : db'.consensusValues.get? key = some value)
      (hpending : db'.pendingProposals.get? key = none)
      (hvotes : ∀ voter, db'.keyValueVotes.get? (toLex (key, voter)) =
        if peerSet.contains voter = true then none
        else db.keyValueVotes.get? (toLex (key, voter)))

theorem Rechecked.congr_left {peerSet : PeerSet} {db db₁ db' : MetaDb}
    {key : MetaKey} (hsame : SameOn db db₁ key)
    (h : Rechecked peerSet db₁ db' key) : Rechecked peerSet db db' key := by
  cases h with
  | skipped hdecided h => exact .skipped (hsame.value ▸ hdecided) (hsame.trans h)
  | undecided hfree hfew h =>
      refine .undecided (hsame.value ▸ hfree) (fun value => ?_) (hsame.trans h)
      rw [← hsame.countVotes]
      exact hfew value
  | decided value hfree hpos henough hvalue hpending hvotes =>
      rw [hsame.countVotes] at hpos henough
      refine .decided value (hsame.value ▸ hfree) hpos henough hvalue hpending ?_
      intro voter
      rw [hvotes voter, hsame.votes voter]

theorem Rechecked.congr_right {peerSet : PeerSet} {db db₁ db' : MetaDb}
    {key : MetaKey} (h : Rechecked peerSet db db₁ key)
    (hsame : SameOn db₁ db' key) : Rechecked peerSet db db' key := by
  cases h with
  | skipped hdecided h => exact .skipped hdecided (h.trans hsame)
  | undecided hfree hfew h => exact .undecided hfree hfew (h.trans hsame)
  | decided value hfree hpos henough hvalue hpending hvotes =>
      exact .decided value hfree hpos henough (hsame.value.trans hvalue)
        (hsame.pending.trans hpending)
        fun voter => (hsame.votes voter).trans (hvotes voter)

theorem recheckKey_rechecked {exclusive : Bool} {live : List MetaTable}
    {peerSet : PeerSet} {db db' : MetaDb} {key : MetaKey}
    (h : db.recheckKey exclusive live peerSet key = .ok db') :
    Rechecked peerSet db db' key ∧ ∀ k, k ≠ key → SameOn db db' k := by
  unfold recheckKey at h
  split at h
  · next hdecided =>
      cases h
      exact ⟨.skipped hdecided (.refl db key), fun k _ => .refl db k⟩
  · next hfree =>
      have hnone : db.consensusValues.get? key = none :=
        Option.not_isSome_iff_eq_none.mp hfree
      obtain ⟨_, hn, h⟩ := Outcome.bind_eq_ok.mp h
      obtain ⟨_, rfl⟩ := toNumPeers_eq_ok.mp hn
      split at h
      · next value count hfind =>
          obtain ⟨hpos, henough⟩ := of_find?_valueCounts hfind
          simp only [Outcome.bind_eq_ok] at h
          obtain ⟨_, _, _, _, _, _, h⟩ := h
          cases h
          constructor
          · refine .decided value hnone hpos henough ?_ ?_ fun voter => ?_
            · exact SortedTable.get?_insert_self _ _ _
            · rw [clearVotes_pendingProposals, SortedTable.get?_remove, if_pos rfl]
            · rw [get?_clearVotes]
              simp
          · intro k hk
            refine ⟨fun voter => ?_, ?_, ?_⟩
            · rw [get?_clearVotes, if_neg fun h => hk h.1]
            · exact SortedTable.get?_insert_of_ne hk
            · rw [clearVotes_pendingProposals, SortedTable.get?_remove, if_neg hk]
      · next hfind =>
          cases h
          exact ⟨.undecided hnone (find?_valueCounts_eq_none.mp hfind)
            (.refl db key), fun k _ => .refl db k⟩

/-- Each key of the loop is rechecked in the state that the loop started in. -/
theorem recheckKeys_rechecked {exclusive : Bool} {live : List MetaTable}
    {peerSet : PeerSet} {db db' : MetaDb} {keys : List MetaKey}
    (hkeys : keys.Nodup)
    (h : db.recheckKeys exclusive live peerSet keys = .ok db') :
    (∀ key ∈ keys, Rechecked peerSet db db' key) ∧
      ∀ key, key ∉ keys → SameOn db db' key := by
  induction keys generalizing db with
  | nil =>
      cases h
      exact ⟨fun _ hmem => absurd hmem List.not_mem_nil, fun key _ => .refl _ key⟩
  | cons key keys ih =>
      obtain ⟨hkey, hkeys⟩ := List.nodup_cons.mp hkeys
      obtain ⟨db₁, h₁, h⟩ := Outcome.bind_eq_ok.mp h
      obtain ⟨hfirst, hothers⟩ := recheckKey_rechecked h₁
      obtain ⟨hrest, hoff⟩ := ih hkeys h
      constructor
      · intro k hk
        rcases List.mem_cons.mp hk with rfl | hk
        · exact hfirst.congr_right (hoff k hkey)
        · have hne : k ≠ key := fun heq => hkey (heq ▸ hk)
          exact (hrest k hk).congr_left (hothers k hne)
      · intro k hk
        obtain ⟨hne, hk⟩ := List.ne_and_not_mem_of_not_mem_cons hk
        exact (hothers k hne).trans (hoff k hk)

/-- The recheck treats every key: one without votes has none to count. -/
theorem recheck_rechecked {exclusive : Bool} {live : List MetaTable}
    {peerSet : PeerSet} {db db' : MetaDb}
    (h : db.recheckConsensusAfterPeerRemoval exclusive live peerSet = .ok db')
    (key : MetaKey) : Rechecked peerSet db db' key := by
  simp only [recheckConsensusAfterPeerRemoval, Outcome.bind_eq_ok] at h
  obtain ⟨_, _, _, _, h⟩ := h
  obtain ⟨hin, hout⟩ := recheckKeys_rechecked (List.nodup_dedup _) h
  by_cases hkey : key ∈ db.keysWithVotes
  · exact hin key hkey
  · cases hvalue : db.consensusValues.get? key with
    | some value => exact .skipped (by rw [hvalue]; rfl) (hout key hkey)
    | none =>
        refine .undecided hvalue (fun value hpos => ?_) (hout key hkey)
        obtain ⟨voter, hvote, _⟩ := countVotes_pos.mp hpos
        exact absurd (mem_keysWithVotes.mpr ⟨voter, by rw [hvote]; rfl⟩) hkey

/-- With tables that open, the recheck fails only for the number of peers. -/
theorem recheck_ok {live : List MetaTable} {peerSet : PeerSet} {db : MetaDb}
    (h : peerSet.len ≤ 255 ∨ db.keysWithVotes = []) :
    ∃ db', db.recheckConsensusAfterPeerRemoval false live peerSet = .ok db' := by
  have hkeys : ∀ (keys : List MetaKey) (live : List MetaTable) (db : MetaDb),
      (peerSet.len ≤ 255 ∨ keys = []) →
      ∃ db', db.recheckKeys false live peerSet keys = .ok db' := by
    intro keys
    induction keys with
    | nil => exact fun _ db _ => ⟨db, rfl⟩
    | cons key keys ih =>
        intro live db h
        have hsize : peerSet.len ≤ 255 := h.resolve_right (List.cons_ne_nil _ _)
        have hfirst : ∃ db₁, db.recheckKey false live peerSet key = .ok db₁ := by
          unfold recheckKey
          split
          · exact ⟨_, rfl⟩
          · rw [Outcome.bind_of_ok (toNumPeers_of_le hsize)]
            split
            · rw [Outcome.bind_of_ok (openTable_false _ _),
                Outcome.bind_of_ok (openTable_false _ _),
                Outcome.bind_of_ok (openTable_false _ _)]
              exact ⟨_, rfl⟩
            · exact ⟨_, rfl⟩
        obtain ⟨db₁, h₁⟩ := hfirst
        rw [recheckKeys, Outcome.bind_of_ok h₁]
        exact ih live db₁ (Or.inl hsize)
  rw [recheckConsensusAfterPeerRemoval, Outcome.bind_of_ok (openTable_false _ _),
    Outcome.bind_of_ok (openTable_false _ _)]
  exact hkeys _ _ _ h

end MetaDb

namespace MetaApp

/-- No value but the agreed one has votes enough. -/
def NoneUnapplied (s : MetaApp) : Prop :=
  ∀ key value, s.metaModule.db.consensusValues.get? key ≠ some value →
    s.metaModule.db.countVotes s.peerSet key value <
      (NumPeers.mk s.peerSet.len).threshold

/-- If a member goes, then on a key that has a value no other value has votes enough
of those that stay. -/
def NoneMissed (s : MetaApp) : MetaAppOp → Prop
  | .processCitem _ _ => True
  | .removePeer peer => (s.peerSetWithout peer).len ≠ 0 →
      ∀ key agreed value,
        s.metaModule.db.consensusValues.get? key = some agreed → value ≠ agreed →
        s.metaModule.db.countVotes (s.peerSetWithout peer) key value <
          (NumPeers.mk (s.peerSetWithout peer).len).threshold

/-- There are members, and too many to count only while nobody has voted. -/
structure Countable (s : MetaApp) : Prop where
  someMember : 0 < s.peerSet.len
  few : s.peerSet.len ≤ 255 ∨ ∀ k, s.metaModule.db.keyValueVotes.get? k = none

theorem peerSetWithout_len_le (s : MetaApp) (peer : PeerPubkey) :
    (s.peerSetWithout peer).len ≤ s.peerSet.len := List.length_filter_le _ _

/-! ## A citem -/

/-- A vote applies its value, or leaves it short of votes. -/
theorem NoneUnapplied.vote {db db' : MetaDb} {peerSet : PeerSet}
    {voter : PeerPubkey} {key : MetaKey} {value : MetaValue}
    {effects : List KeyValueConsensusEffect} (hmember : 0 < peerSet.len)
    (hnone : ∀ key value, db.consensusValues.get? key ≠ some value →
      db.countVotes peerSet key value < (NumPeers.mk peerSet.len).threshold)
    (h : MetaDb.VoteCase db voter peerSet key value db' effects) (k : MetaKey)
    (v : MetaValue) (hv : db'.consensusValues.get? k ≠ some v) :
    db'.countVotes peerSet k v < (NumPeers.mk peerSet.len).threshold := by
  cases h with
  | repeated hsame => exact hnone k v hv
  | recorded _ hnew hsize hdb hfew =>
      by_cases hkv : k = key ∧ v = value
      · rw [hkv.1, hkv.2]
        exact hfew
      · -- nobody has come to vote for another value
        rw [hdb] at hv
        refine Nat.lt_of_le_of_lt (MetaDb.countVotes_le fun w hw hin => ⟨?_, hin⟩)
          (hnone k v hv)
        rw [hdb] at hw
        rcases SortedTable.get?_insert_eq_some hw with ⟨hk, rfl⟩ | hw
        · exact absurd ⟨congrArg (fun k => (ofLex k).1) hk, rfl⟩ hkv
        · exact hw
  | decided db₁ hnew hsize hvotes hvalues hpending henough =>
      by_cases hk : k = key
      · -- the votes of all members on the key are gone
        have hgone : ∀ w, peerSet.contains w = true →
            (db₁.clearVotes peerSet key).keyValueVotes.get? (toLex (k, w)) = none := by
          intro w hin
          rw [MetaDb.get?_clearVotes, if_pos ⟨hk, hin⟩]
        rw [MetaDb.countVotes_eq_zero hgone]
        exact NumPeers.threshold_pos hmember.ne'
      · rw [MetaDb.clearVotes_consensusValues, hvalues,
          SortedTable.get?_insert_of_ne hk] at hv
        refine Nat.lt_of_le_of_lt (MetaDb.countVotes_le fun w hw hin => ⟨?_, hin⟩)
          (hnone k v hv)
        rw [MetaDb.get?_clearVotes, if_neg fun h => hk h.1, hvotes] at hw
        rcases SortedTable.get?_insert_eq_some hw with ⟨hkey, _⟩ | hw
        · exact absurd (congrArg (fun k => (ofLex k).1) hkey) hk
        · exact hw

/-- Votes are recorded only if the members can be counted. -/
theorem few_of_vote {db db' : MetaDb} {peerSet : PeerSet} {voter : PeerPubkey}
    {key : MetaKey} {value : MetaValue} {effects : List KeyValueConsensusEffect}
    (hfew : peerSet.len ≤ 255 ∨ ∀ k, db.keyValueVotes.get? k = none)
    (h : MetaDb.VoteCase db voter peerSet key value db' effects) :
    peerSet.len ≤ 255 := by
  cases h with
  | repeated hsame =>
      refine hfew.resolve_right fun hall => ?_
      rw [hall] at hsame
      cases hsame
  | recorded _ _ hsize _ _ => exact hsize
  | decided _ _ hsize _ _ _ _ => exact hsize

/-! ## A removal -/

/-- All that an op that has not failed does. -/
inductive Steps (s : MetaApp) : MetaAppOp → MetaApp → Prop
  | vote (voter : PeerPubkey) (citem : Option MetaCitem) (m : MetaModule)
      (effects : List KeyValueConsensusEffect) (key : MetaKey) (value : MetaValue)
      (hvote : MetaDb.VoteCase s.metaModule.db voter s.peerSet key value m.db effects) :
      Steps s (.processCitem voter citem) { s with metaModule := m }
  | removed (peer : PeerPubkey) (db : MetaDb)
      (hleft : (s.peerSetWithout peer).len ≠ 0)
      (hkeys : ∀ key, MetaDb.Rechecked (s.peerSetWithout peer) s.metaModule.db db key) :
      Steps s (.removePeer peer)
        ⟨{ s.metaModule with db := db }, s.peerSetWithout peer⟩

theorem tryStep_steps {s s' : MetaApp} {op : MetaAppOp} (h : s.tryStep op = .ok s') :
    Steps s op s' := by
  cases op with
  | processCitem voter citem =>
      simp only [tryStep, Outcome.bind_eq_ok] at h
      obtain ⟨⟨m, effects⟩, hm, h⟩ := h
      cases h
      obtain ⟨key, value, _, hvote⟩ := MetaModule.processCitem_vote hm
      exact .vote voter citem m effects key value hvote
  | removePeer peer =>
      simp only [tryStep, Outcome.bind_eq_ok, Outcome.ensure_eq_ok] at h
      obtain ⟨_, hleft, db, hdb, h⟩ := h
      cases h
      simp only [removalEffects, MetaDb.processEffects, MetaDb.removesPeer,
        if_true, Outcome.bind_eq_ok] at hdb
      obtain ⟨db₁, hdb₁, hdb⟩ := hdb
      cases hdb
      exact .removed peer db hleft (MetaDb.recheck_rechecked hdb₁)

/-- A removal that leaves somebody is carried out. -/
theorem removePeer_ok {s : MetaApp} {peer : PeerPubkey} (hs : s.Countable)
    (hleft : (s.peerSetWithout peer).len ≠ 0) :
    ∃ s', s.tryStep (.removePeer peer) = .ok s' := by
  have hfew : (s.peerSetWithout peer).len ≤ 255 ∨
      s.metaModule.db.keysWithVotes = [] := by
    rcases hs.few with hfew | hempty
    · exact Or.inl (Nat.le_trans (s.peerSetWithout_len_le peer) hfew)
    · refine Or.inr (List.eq_nil_iff_forall_not_mem.mpr fun key hkey => ?_)
      obtain ⟨voter, hvote⟩ := MetaDb.mem_keysWithVotes.mp hkey
      rw [hempty] at hvote
      cases hvote
  obtain ⟨db, hdb⟩ : ∃ db, s.metaModule.db.recheckConsensusAfterPeerRemoval false []
      (s.peerSetWithout peer) = .ok db := MetaDb.recheck_ok hfew
  refine ⟨⟨{ s.metaModule with db := db }, s.peerSetWithout peer⟩, ?_⟩
  rw [tryStep, Outcome.bind_of_ok (Outcome.ensure_of hleft)]
  have hall : s.metaModule.db.processEffects false (s.peerSetWithout peer)
      (s.removalEffects peer) = .ok db := by
    simp only [removalEffects, MetaDb.processEffects, MetaDb.removesPeer, if_true]
    rw [Outcome.bind_of_ok hdb]
    rfl
  rw [Outcome.bind_of_ok hall]
  rfl

theorem Countable.step {s : MetaApp} (hs : s.Countable) (op : MetaAppOp) :
    (s.step op).Countable := by
  rw [MetaApp.step]
  split
  swap
  · exact hs
  next s' h =>
  cases tryStep_steps h with
  | vote voter citem m effects key value hvote =>
      exact ⟨hs.someMember, Or.inl (few_of_vote hs.few hvote)⟩
  | removed peer db hleft hkeys =>
      refine ⟨Nat.pos_of_ne_zero hleft, ?_⟩
      rcases hs.few with hfew | hempty
      · exact Or.inl (Nat.le_trans (s.peerSetWithout_len_le peer) hfew)
      · refine Or.inr fun k => ?_
        -- there was no vote, so the recheck found none
        have hk : db.keyValueVotes.get? (toLex ((ofLex k).1, (ofLex k).2)) = none := by
          cases hkeys (ofLex k).1 with
          | skipped _ hsame => rw [hsame.votes, hempty]
          | undecided _ _ hsame => rw [hsame.votes, hempty]
          | decided value _ _ _ _ _ hvotes => rw [hvotes, hempty, ite_self]
        exact hk

/-- An op leaves no value unapplied just if it misses none. -/
theorem noneUnapplied_step {s : MetaApp} (op : MetaAppOp) (hs : s.Countable)
    (hnone : s.NoneUnapplied) : (s.step op).NoneUnapplied ↔ s.NoneMissed op := by
  cases op with
  | processCitem voter citem =>
      refine iff_of_true ?_ trivial
      rw [MetaApp.step]
      split
      swap
      · exact hnone
      next s' h =>
      cases tryStep_steps h with
      | vote _ _ m effects key value hvote =>
          exact NoneUnapplied.vote hs.someMember hnone hvote
  | removePeer peer =>
      by_cases hleft : (s.peerSetWithout peer).len ≠ 0
      swap
      · have hfail : s.step (.removePeer peer) = s := by
          rw [MetaApp.step]
          split
          · next s' h =>
              cases tryStep_steps h with
              | removed _ db hne _ => exact absurd hne hleft
          · rfl
        rw [hfail]
        exact iff_of_true hnone fun h => absurd h hleft
      obtain ⟨s', hs'⟩ := removePeer_ok hs hleft
      have hstep : s.step (.removePeer peer) = s' := by
        rw [MetaApp.step, hs']
      rw [hstep]
      cases tryStep_steps hs' with
      | removed _ db _ hkeys =>
          have hpos := NumPeers.threshold_pos hleft
          constructor
          · intro hafter _ key agreed value hagreed hne
            cases hkeys key with
            | skipped _ hsame =>
                rw [← hsame.countVotes]
                refine hafter key value ?_
                rw [hsame.value, hagreed]
                exact fun h => hne (Option.some.inj h).symm
            | undecided hfree _ _ =>
                rw [hagreed] at hfree
                cases hfree
            | decided _ hfree _ _ _ _ _ =>
                rw [hagreed] at hfree
                cases hfree
          · intro hmissed key value hvalue
            cases hkeys key with
            | skipped hdecided hsame =>
                obtain ⟨agreed, hagreed⟩ := Option.isSome_iff_exists.mp hdecided
                rw [hsame.countVotes]
                refine hmissed hleft key agreed value hagreed fun heq => hvalue ?_
                rw [hsame.value, hagreed, heq]
            | undecided _ hfew hsame =>
                rw [hsame.countVotes]
                rcases Nat.eq_zero_or_pos (s.metaModule.db.countVotes
                    (s.peerSetWithout peer) key value) with hzero | hsome
                · rw [hzero]
                  exact hpos
                · exact hfew value hsome
            | decided _ _ _ _ _ _ hvotes =>
                rw [MetaDb.countVotes_eq_zero fun w hin => by
                  rw [hvotes w, if_pos hin]]
                exact hpos

/-- In every state of a run all values with votes enough are applied, just if no
removal of the run misses one. -/
theorem noneUnapplied_iff_noneMissed (key : Option PeerPubkey) (peerSet : PeerSet)
    (hmember : 0 < peerSet.len) (ops : List MetaAppOp) :
    (∀ before, before <+: ops → ((start key peerSet).run before).NoneUnapplied) ↔
      Trail.Guarded step NoneMissed (start key peerSet) ops := by
  have hcountable : (start key peerSet).Countable :=
    ⟨hmember, Or.inr fun _ => rfl⟩
  have hnone : (start key peerSet).NoneUnapplied := fun k value _ => by
    rw [MetaDb.countVotes_eq_zero fun _ _ => rfl]
    exact NumPeers.threshold_pos hmember.ne'
  exact (Trail.guarded_iff (I := NoneUnapplied) (J := Countable)
    (fun _ op hs => hs.step op)
    (fun _ op hs hnone => noneUnapplied_step op hs hnone) hcountable hnone).symm

/-- Two members agree on a value, one of them wants another and the other goes. -/
def onceAgreed : List MetaAppOp :=
  [.processCitem 1 (some (.proposeValue 0 [7])),
    .processCitem 2 (some (.proposeValue 0 [7])),
    .processCitem 1 (some (.proposeValue 0 [8])), .removePeer 2]

theorem onceAgreed_unapplied :
    ¬ ∀ before, before <+: onceAgreed →
      ((start (some 1) ⟨[1, 2]⟩).run before).NoneUnapplied := by
  intro h
  have hfew := h onceAgreed List.prefix_rfl 0 [8] (by decide +kernel)
  revert hfew
  decide +kernel

/-- As long as both stay, nothing is left unapplied. -/
theorem noneUnapplied_while_both_stay :
    ((start (some 1) ⟨[1, 2]⟩).run (onceAgreed.take 3)).NoneUnapplied := by
  refine (noneUnapplied_iff_noneMissed (some 1) ⟨[1, 2]⟩ (by decide)
    (onceAgreed.take 3)).mpr ?_ _ List.prefix_rfl
  refine Trail.Guarded.of_forall fun op hop s => ?_
  cases op with
  | processCitem voter citem => trivial
  | removePeer peer =>
      have hnot : MetaAppOp.removePeer peer ∉ onceAgreed.take 3 := by
        simp [onceAgreed]
      exact absurd hop hnot

end MetaApp

end Bfte
