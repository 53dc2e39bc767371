import Bfte.Core.Concrete
import Bfte.Lib.Quorum
import Bfte.Proofs.Tables

/-!
# Two notarizations of a round

A notarization that `verify_sigs` accepts names its signers by their index in the
peer set, and each index once, because the signatures are a map. So the signers
are a quorum of positions, and two quorums share a position whose key is not
Byzantine. A key that signs one header a round has then signed both headers.
-/

namespace Bfte

namespace Notarized

variable {D S : Type}

/-- The indices that signed. -/
def signers (b : Notarized D S) : Finset PeerIdx :=
  (b.sigs.entries.map Prod.fst).toFinset

theorem card_signers (b : Notarized D S) :
    b.signers.card = b.sigs.entries.length := by
  rw [signers, List.toFinset_card_of_nodup, List.length_map]
  exact List.pairwise_map.mpr (b.sigs.sorted.imp fun hlt => ne_of_lt hlt)

theorem mem_signers {b : Notarized D S} {i : PeerIdx} :
    i ∈ b.signers ↔ ∃ sig, (i, sig) ∈ b.sigs.entries := by
  rw [signers, List.mem_toFinset, List.mem_map]
  constructor
  · rintro ⟨e, he, rfl⟩
    exact ⟨e.2, he⟩
  · rintro ⟨sig, he⟩
    exact ⟨(i, sig), he, rfl⟩

variable [Signing D S]

/-- What every notarization that verifies has. -/
structure Valid (b : Notarized D S) (params : ConsensusParams D) : Prop where
  len : params.peers.len ≤ 255
  enough : (NumPeers.mk params.peers.len).threshold ≤ b.signers.card
  sigs : ∀ e ∈ b.sigs.entries, SigOk params.peers (.header b.inner) e.1 e.2

theorem valid_iff {b : Notarized D S} {params : ConsensusParams D} :
    b.verifySigs params = .ok () ↔ b.Valid params := by
  rw [verifySigs_eq_ok, ← card_signers]
  exact ⟨fun h => ⟨h.1, h.2.1, h.2.2⟩, fun h => ⟨h.len, h.enough, h.sigs⟩⟩

theorem Valid.signers_subset {b : Notarized D S} {params : ConsensusParams D}
    (h : b.Valid params) : b.signers ⊆ Finset.range params.peers.len := by
  intro i hi
  obtain ⟨sig, he⟩ := mem_signers.mp hi
  exact Finset.mem_range.mpr (h.sigs _ he).lt_len

/-- The signature of a signer is by the key at its index. -/
theorem Valid.verified {b : Notarized D S} {params : ConsensusParams D}
    (h : b.Valid params) {i : PeerIdx} {k : PeerPubkey} (hi : i ∈ b.signers)
    (hk : params.peers.items[i]? = some k) : ∃ sig, (i, sig) ∈ b.sigs.entries ∧
      Signing.verify k sig (SignMsg.header b.inner) = true := by
  obtain ⟨sig, he⟩ := mem_signers.mp hi
  obtain ⟨k', hk', _, hsig⟩ := h.sigs _ he
  rw [hk] at hk'
  cases hk'
  exact ⟨sig, he, hsig⟩

/-- Notarizations share a signer that is not Byzantine. -/
theorem Valid.exists_common {b b' : Notarized D S} {params : ConsensusParams D}
    {byz : PeerPubkey → Bool} (hpos : 1 ≤ params.peers.len)
    (hfaulty : params.peers.items.countP byz ≤
      (NumPeers.mk params.peers.len).maxFaulty)
    (h : b.Valid params) (h' : b'.Valid params) :
    ∃ i k, i ∈ b.signers ∧ i ∈ b'.signers ∧ params.peers.items[i]? = some k ∧
      byz k = false := by
  have hover := NumPeers.total_add_maxFaulty_lt (n := ⟨params.peers.len⟩) hpos
  have hcount : (Finset.range params.peers.len).card +
      ((Finset.range params.peers.len).filter
        fun i => params.peers.items[i]?.any byz = true).card <
          2 * (NumPeers.mk params.peers.len).threshold := by
    have hcard : ((Finset.range params.peers.len).filter
        fun i => params.peers.items[i]?.any byz = true).card =
          params.peers.items.countP byz := Quorum.card_positions byz _
    rw [Finset.card_range, hcard]
    exact lt_of_le_of_lt (Nat.add_le_add_left hfaulty _) hover
  obtain ⟨i, hi, hi', hcorrect⟩ := Quorum.exists_common_correct h.signers_subset
    h'.signers_subset h.enough h'.enough hcount
  have hlt := Finset.mem_range.mp (h.signers_subset hi)
  obtain ⟨k, hk⟩ : ∃ k, params.peers.items[i]? = some k :=
    ⟨_, List.getElem?_eq_getElem hlt⟩
  refine ⟨i, k, hi, hi', hk, ?_⟩
  rw [hk] at hcorrect
  simpa using hcorrect

end Notarized

section Unique

variable {D S : Type} [LinearOrder D] [Hashing D] [Signing D S]

/-- Of the given keys, those that are not Byzantine sign at most one non-dummy
header a round. -/
def SignOnce (signs : PeerPubkey → BlockHeader D → Prop)
    (byz : PeerPubkey → Bool) (keys : List PeerPubkey) : Prop :=
  ∀ k ∈ keys, byz k = false → ∀ h h', signs k h → signs k h' →
    h.isDummy = false → h'.isDummy = false → h.round = h'.round → h = h'

/-- No signature of a key that is not Byzantine is forged. -/
def Unforged (signs : PeerPubkey → BlockHeader D → Prop)
    (byz : PeerPubkey → Bool) (peers : PeerSet) (b : Notarized D S) : Prop :=
  ∀ e ∈ b.sigs.entries, ∀ k ∈ peers.items[e.1]?, byz k = false →
    Signing.verify k e.2 (SignMsg.header b.inner) = true → signs k b.inner

/-- Two notarized blocks of a round are one block. -/
theorem notarized_unique {params : ConsensusParams D} {byz : PeerPubkey → Bool}
    {signs : PeerPubkey → BlockHeader D → Prop} (hpos : 1 ≤ params.peers.len)
    (hfaulty : params.peers.items.countP byz ≤
      (NumPeers.mk params.peers.len).maxFaulty)
    (honce : SignOnce signs byz params.peers.items) {b b' : Notarized D S}
    (hb : Unforged signs byz params.peers b)
    (hb' : Unforged signs byz params.peers b')
    (hround : b.inner.round = b'.inner.round) (hdummy : b.inner.isDummy = false)
    (hdummy' : b'.inner.isDummy = false) (hver : b.verifySigs params = .ok ())
    (hver' : b'.verifySigs params = .ok ()) : b.inner = b'.inner := by
  have hvalid := Notarized.valid_iff.mp hver
  have hvalid' := Notarized.valid_iff.mp hver'
  obtain ⟨i, k, hi, hi', hk, hcorrect⟩ :=
    hvalid.exists_common hpos hfaulty hvalid'
  obtain ⟨sig, he, hsig⟩ := hvalid.verified hi hk
  obtain ⟨sig', he', hsig'⟩ := hvalid'.verified hi' hk
  have hsigned : signs k b.inner := hb _ he k hk hcorrect hsig
  have hsigned' : signs k b'.inner := hb' _ he' k hk hcorrect hsig'
  exact honce k (List.mem_of_getElem? hk) hcorrect _ _ hsigned hsigned' hdummy
    hdummy' hround

end Unique

/-! ## Four peers -/

/-- A block of four peers. -/
def fourBlock : BlockHeader ListDigest :=
  .build none 0 5 (plainParams [10, 11, 12, 13]) [7]

/-- The last of four peers signs anything, the others one block. -/
theorem notarized_unique_of_four :
    (notarizedBy [10, 11, 12, 13] [0, 1, 3] fourBlock).inner =
      (notarizedBy [10, 11, 12, 13] [1, 2, 3] fourBlock).inner := by
  have hfaulty : (plainParams [10, 11, 12, 13]).peers.items.countP
      (fun k => decide (k = 13)) ≤
        (NumPeers.mk (plainParams [10, 11, 12, 13]).peers.len).maxFaulty := by decide
  have honce : SignOnce (fun k h => k = 13 ∨ h = fourBlock)
      (fun k => decide (k = 13)) (plainParams [10, 11, 12, 13]).peers.items := by
    intro k _ hk h h' hs hs' _ _ _
    have hne : k ≠ 13 := of_decide_eq_false hk
    exact (hs.resolve_left hne).trans (hs'.resolve_left hne).symm
  have hver : (notarizedBy [10, 11, 12, 13] [0, 1, 3] fourBlock).verifySigs
      (plainParams [10, 11, 12, 13]) = .ok () := by decide
  have hver' : (notarizedBy [10, 11, 12, 13] [1, 2, 3] fourBlock).verifySigs
      (plainParams [10, 11, 12, 13]) = .ok () := by decide
  exact notarized_unique (by decide) hfaulty honce (fun _ _ _ _ _ _ => Or.inr rfl)
    (fun _ _ _ _ _ _ => Or.inr rfl) rfl (by decide) (by decide) hver hver'

end Bfte
