import Bfte.Core.Concrete

/-!
# Checking a notarization

`verify_sigs` is the first thing done with a block that somebody sends. It accepts
what it should: enough signatures, each valid for the peer at its index. What it does
not do is look whether there is a peer at an index. The signatures come in the order
of the indices, so the check gets to such an index exactly when all the signatures
that have a peer are valid.
-/

namespace Bfte

namespace Notarized

variable {D S : Type} [Signing D S]

/-- The signature is valid for the peer at its index, if there is one. -/
def EntryValid (h : BlockHeader D) (peers : PeerSet) (e : PeerIdx × S) : Prop :=
  ∀ k ∈ peers.items[e.1]?, Signing.verify k e.2 (SignMsg.header h) = true

/-- What a notarization is: a threshold of signatures, each of a peer and valid. -/
structure WellSigned (b : Notarized D S) (params : ConsensusParams D) : Prop where
  enough : (NumPeers.mk params.peers.len).threshold ≤ b.sigs.entries.length
  inRange : ∀ e ∈ b.sigs.entries, e.1 < params.peers.len
  sigs : ∀ e ∈ b.sigs.entries, EntryValid b.inner params.peers e

/-- The check accepts notarizations, reports an error for everything else, and does
not panic. -/
structure ExactlyChecked (b : Notarized D S) (params : ConsensusParams D) : Prop where
  accepts : b.verifySigs params = .ok () ↔ b.WellSigned params
  rejects : ¬ b.WellSigned params → (b.verifySigs params).Failed
  total : ¬ (b.verifySigs params).Panicked

/-- The peers can be counted, and if there are enough signatures and none of those
with a peer is wrong, all have a peer. -/
structure Checkable (b : Notarized D S) (params : ConsensusParams D) : Prop where
  size : params.peers.len ≤ 255
  inRange : (NumPeers.mk params.peers.len).threshold ≤ b.sigs.entries.length →
    (∀ e ∈ b.sigs.entries, EntryValid b.inner params.peers e) →
      ∀ e ∈ b.sigs.entries, e.1 < params.peers.len

theorem sigOk_iff {h : BlockHeader D} {peers : PeerSet} {e : PeerIdx × S}
    (hkeys : ∀ k ∈ peers.items, Signing.validKey D S k = true) :
    SigOk peers (.header h) e.1 e.2 ↔ e.1 < peers.len ∧ EntryValid h peers e := by
  constructor
  · intro hsig
    refine ⟨hsig.lt_len, fun k hk => ?_⟩
    obtain ⟨k', hk', _, hverify⟩ := hsig
    obtain rfl : k' = k := Option.some.inj (hk'.symm.trans hk)
    exact hverify
  · rintro ⟨hlt, hvalid⟩
    have hk : peers.items[e.1]? = some (peers.items.get ⟨e.1, hlt⟩) :=
      List.getElem?_eq_getElem hlt
    exact ⟨_, hk, hkeys _ (List.mem_of_getElem? hk), hvalid _ hk⟩

/-- In the order of the indices, the first index without a peer is reached when every
signature before it is valid. -/
theorem verifyEach_panicked_iff {h : BlockHeader D} {peers : PeerSet}
    (hkeys : ∀ k ∈ peers.items, Signing.validKey D S k = true)
    {l : List (PeerIdx × S)} (hsorted : SortedTable.Sorted l) :
    (verifyEach h peers l).Panicked ↔
      (∀ e ∈ l, EntryValid h peers e) ∧ ∃ e ∈ l, peers.len ≤ e.1 := by
  induction l with
  | nil => simp [verifyEach]
  | cons e l ih =>
      obtain ⟨i, sig⟩ := e
      obtain ⟨hfirst, hrest⟩ := List.pairwise_cons.mp hsorted
      rcases Nat.lt_or_ge i peers.len with hlt | hge
      · have hk : peers.items[i]? = some (peers.items.get ⟨i, hlt⟩) :=
          List.getElem?_eq_getElem hlt
        generalize peers.items.get ⟨i, hlt⟩ = k at hk
        have hkey := hkeys k (List.mem_of_getElem? hk)
        have hthis : EntryValid h peers (i, sig) ↔
            Signing.verify k sig (SignMsg.header h) = true := by
          unfold EntryValid
          rw [hk]
          simp
        rw [verifyEach, Outcome.bind_of_ok (PeerSet.index_eq_ok.mpr hk)]
        rw [List.forall_mem_cons, List.exists_mem_cons_iff, hthis]
        cases hverify : Signing.verify k sig (SignMsg.header h) with
        | true =>
            have hok : verifyHashSignature (.header h) k sig = .ok () :=
              verifyHashSignature_eq_ok.mpr ⟨hkey, hverify⟩
            rw [Outcome.bind_of_ok (Outcome.orRaise_eq_ok.mpr hok), ih hrest]
            simp [not_le.mpr hlt]
        | false =>
            have hfails : verifyHashSignature (.header h) k sig =
                Outcome.raise .invalidSignature := by
              rw [verifyHashSignature, Outcome.bind_of_ok (Outcome.assertThat_of hkey),
                Outcome.ensure, hverify]
              rfl
            rw [hfails]
            refine iff_of_false ?_ fun hall => Bool.noConfusion hall.1.1
            exact Outcome.not_panicked_raise (ε := InvalidNotarizationError)
      · have hnone : peers.items[i]? = none := List.getElem?_eq_none hge
        refine iff_of_true ?_ ⟨?_, (i, sig), List.mem_cons_self, hge⟩
        · rw [verifyEach, PeerSet.index, hnone]
          exact Outcome.panicked_crash (ε := InvalidNotarizationError)
        · intro e he k hk
          have hbeyond : peers.len ≤ e.1 := by
            rcases List.mem_cons.mp he with rfl | he
            · exact hge
            · exact hge.trans (hfirst e he).le
          rw [List.getElem?_eq_none hbeyond] at hk
          cases hk

theorem verifySigs_eq_ok_iff {b : Notarized D S} {params : ConsensusParams D}
    (hkeys : ∀ k ∈ params.peers.items, Signing.validKey D S k = true) :
    b.verifySigs params = .ok () ↔ params.peers.len ≤ 255 ∧ b.WellSigned params := by
  rw [verifySigs_eq_ok]
  refine and_congr_right fun _ => ?_
  constructor
  · rintro ⟨henough, hsigs⟩
    exact ⟨henough, fun e he => ((sigOk_iff hkeys).mp (hsigs e he)).1,
      fun e he => ((sigOk_iff hkeys).mp (hsigs e he)).2⟩
  · intro hvalid
    exact ⟨hvalid.enough, fun e he =>
      (sigOk_iff hkeys).mpr ⟨hvalid.inRange e he, hvalid.sigs e he⟩⟩

theorem verifySigs_panicked_iff {b : Notarized D S} {params : ConsensusParams D}
    (hkeys : ∀ k ∈ params.peers.items, Signing.validKey D S k = true) :
    (b.verifySigs params).Panicked ↔ ¬ b.Checkable params := by
  rcases Nat.lt_or_ge 255 params.peers.len with hlarge | hsize
  · refine iff_of_true ?_ fun h => absurd h.size (not_le.mpr hlarge)
    exact Outcome.bind_panicked.mpr (Or.inl (panicked_toNumPeers.mpr hlarge))
  · have hn : (params.numPeers : Outcome InvalidNotarizationError _) =
        .ok ⟨params.peers.len⟩ := toNumPeers_of_le hsize
    have hcheckable : b.Checkable params ↔
        ((NumPeers.mk params.peers.len).threshold ≤ b.sigs.entries.length →
          (∀ e ∈ b.sigs.entries, EntryValid b.inner params.peers e) →
            ∀ e ∈ b.sigs.entries, e.1 < params.peers.len) :=
      ⟨fun h => h.inRange, fun h => ⟨hsize, h⟩⟩
    rw [hcheckable, verifySigs, Outcome.bind_of_ok hn]
    by_cases henough : (NumPeers.mk params.peers.len).threshold ≤ b.sigs.entries.length
    · rw [Outcome.bind_of_ok (Outcome.ensure_of henough),
        verifyEach_panicked_iff hkeys b.sigs.sorted]
      simp [henough]
    · refine iff_of_false ?_ fun h => h fun hle => absurd hle henough
      rw [Outcome.ensure, if_neg henough]
      exact Outcome.not_panicked_raise (ε := InvalidNotarizationError)

/-- The check is exact and never panics for just those signatures, and params, with
which it does not get to an index without a peer. -/
theorem exactlyChecked_iff (b : Notarized D S) (params : ConsensusParams D)
    (hkeys : ∀ k ∈ params.peers.items, Signing.validKey D S k = true) :
    b.ExactlyChecked params ↔ b.Checkable params := by
  have hpanic := verifySigs_panicked_iff (b := b) hkeys
  have hok := verifySigs_eq_ok_iff (b := b) hkeys
  constructor
  · intro h
    by_contra hnot
    exact h.total (hpanic.mpr hnot)
  · intro h
    have htotal : ¬ (b.verifySigs params).Panicked := fun hp => hpanic.mp hp h
    refine ⟨?_, fun hinvalid => ?_, htotal⟩
    · rw [hok]
      exact and_iff_right h.size
    · exact Outcome.failed_of (fun _ ha => hinvalid (hok.mp ha).2) htotal

/-! ## An index without a peer -/

/-- A block of four peers. -/
def fourPeersBlock : BlockHeader ListDigest :=
  .build none 0 0 (plainParams [10, 11, 12, 13]) []

/-- Two of four peers sign, and a third signature is for index 200. -/
theorem index_without_peer_panics :
    ¬ (notarizedBy [10, 11, 12, 13] [0, 1, 200] fourPeersBlock :
      Notarized ListDigest PlainSig).ExactlyChecked (plainParams [10, 11, 12, 13]) :=
  fun h => h.total (by decide +kernel)

/-- Three of four peers sign, and one signature is for another peer's index. -/
theorem exactlyChecked_of_peers :
    (notarizedBy [10, 11, 12, 13] [0, 2, 3] fourPeersBlock :
      Notarized ListDigest PlainSig).ExactlyChecked (plainParams [10, 11, 12, 13]) :=
  (exactlyChecked_iff _ _ (fun _ _ => rfl)).mpr
    ⟨by decide, fun _ _ => by decide +kernel⟩

end Notarized

end Bfte
