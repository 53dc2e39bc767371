import Bfte.Core.Block
import Bfte.Lib.SortedTable

/-!
# Signatures, votes and notarizations

Keys and signatures are as opaque as digests: an instance of `Signing` says
which signature is valid for which key on which message, and which 32 bytes are
a key at all. A signed message is tagged by its type, so a finality vote can
not be passed off as a header.

Three things in here panic rather than fail when they are handed something out
of range: an index past the peer set, and a peer whose key is not a key.
-/

namespace Bfte

/-- What a peer can sign: a header, or how far it has notarized. -/
inductive SignMsg (D : Type) where
  | header (h : BlockHeader D)
  | finality (round : BlockRound)
  deriving Repr, DecidableEq

/-- What the node takes from its signature scheme. -/
class Signing (D S : Type) where
  verify : PeerPubkey → S → SignMsg D → Bool
  sign : PeerPubkey → SignMsg D → S
  /-- `VerifyingKey::try_from` accepts the key. -/
  validKey : PeerPubkey → Bool

/-- Own signatures verify. -/
class LawfulSigning (D S : Type) [Signing D S] : Prop where
  verify_sign : ∀ (k : PeerPubkey) (m : SignMsg D),
    Signing.verify k (Signing.sign k m : S) m = true

/-- A header together with one signature. -/
structure Signed (D S : Type) where
  inner : BlockHeader D
  sig : S
  deriving Repr, DecidableEq

/-- A vote for a header. -/
abbrev SignedVote := Signed

/-- A header with the signatures of the peers that voted for it. -/
structure Notarized (D S : Type) where
  inner : BlockHeader D
  sigs : SortedTable PeerIdx S

/-- `InvalidNotarizationError`. -/
inductive InvalidNotarizationError where
  | notEnoughSignatures
  | invalidPeerSignature (peerIdx : PeerIdx)
  deriving Repr, DecidableEq

/-- `InvalidSignatureError`. -/
inductive InvalidSignatureError where
  | invalidSignature
  deriving Repr, DecidableEq

/-! ## Messages between peers -/

/-- The answer to a request for a peer's vote. -/
inductive WaitVoteResponse (D S : Type) where
  | proposal (block : Signed D S) (payload : BlockPayloadRaw)
  | vote (block : Signed D S)
  deriving Repr, DecidableEq

/-- `WaitVoteResponse::block`. -/
def WaitVoteResponse.block {D S : Type} : WaitVoteResponse D S → Signed D S
  | .proposal block _ => block
  | .vote block => block

/-- A request for the first notarized block from `minNotarizedRound` on, or
else for whatever ends `curRound`. -/
structure WaitNotarizedBlockRequest where
  minNotarizedRound : BlockRound
  curRound : BlockRound
  deriving Repr, DecidableEq

/-- The answer to it. -/
structure WaitNotarizedBlockResponse (D S : Type) where
  block : Notarized D S
  payload : BlockPayloadRaw

/-- A signed statement of how far a peer has notarized. -/
structure WaitFinalityVoteResponse (S : Type) where
  update : BlockRound
  sig : S
  deriving Repr, DecidableEq

variable {D S : Type} [Signing D S]

/-! ## Checking signatures -/

/-- `verify_hash_signature`. -/
def verifyHashSignature (msg : SignMsg D) (pubkey : PeerPubkey) (sig : S) :
    Outcome InvalidSignatureError Unit := do
  Outcome.assertThat (Signing.validKey D S pubkey = true)
    "At this point pubkeys must be valid"
  Outcome.ensure (Signing.verify pubkey sig msg = true) .invalidSignature

/-- The key at an index, as `peers[idx]` reads it. -/
def PeerSet.index {ε : Type} (p : PeerSet) (i : PeerIdx) : Outcome ε PeerPubkey :=
  Outcome.expect p.items[i]? "index out of bounds"

/-- `Signed::verify_sig_peer_idx`. -/
def Signed.verifySigPeerIdx (v : Signed D S) (i : PeerIdx) (peers : PeerSet) :
    Outcome InvalidSignatureError Unit := do
  let k ← peers.index i
  verifyHashSignature (.header v.inner) k v.sig

/-- The loop of `verify_sigs` over the signatures. -/
def Notarized.verifyEach (h : BlockHeader D) (peers : PeerSet) :
    List (PeerIdx × S) → Outcome InvalidNotarizationError Unit
  | [] => .ok ()
  | (i, sig) :: rest => do
      let k ← peers.index i
      (verifyHashSignature (.header h) k sig).orRaise (.invalidPeerSignature i)
      verifyEach h peers rest

/-- `Notarized::verify_sigs`. -/
def Notarized.verifySigs (b : Notarized D S) (params : ConsensusParams D) :
    Outcome InvalidNotarizationError Unit := do
  let n ← params.numPeers
  Outcome.ensure (n.threshold ≤ b.sigs.entries.length) .notEnoughSignatures
  Notarized.verifyEach b.inner params.peers b.sigs.entries

/-- A signature of the peer at an index of a peer set, on a message. -/
def SigOk (peers : PeerSet) (msg : SignMsg D) (i : PeerIdx) (sig : S) : Prop :=
  ∃ k, peers.items[i]? = some k ∧ Signing.validKey D S k = true ∧
    Signing.verify k sig msg = true

theorem SigOk.lt_len {peers : PeerSet} {msg : SignMsg D} {i : PeerIdx} {sig : S}
    (h : SigOk peers msg i sig) : i < peers.len := by
  obtain ⟨k, hk, _⟩ := h
  exact (List.getElem?_eq_some_iff.mp hk).1

@[simp] theorem verifyHashSignature_eq_ok {msg : SignMsg D} {k : PeerPubkey}
    {sig : S} {u : Unit} :
    verifyHashSignature msg k sig = .ok u ↔
      Signing.validKey D S k = true ∧ Signing.verify k sig msg = true := by
  simp [verifyHashSignature]

@[simp] theorem PeerSet.index_eq_ok {ε : Type} {p : PeerSet} {i : PeerIdx}
    {k : PeerPubkey} :
    (p.index i : Outcome ε PeerPubkey) = .ok k ↔ p.items[i]? = some k := by
  simp [PeerSet.index]

theorem Signed.verifySigPeerIdx_eq_ok {v : Signed D S} {i : PeerIdx}
    {peers : PeerSet} {u : Unit} :
    v.verifySigPeerIdx i peers = .ok u ↔ SigOk peers (.header v.inner) i v.sig := by
  simp [Signed.verifySigPeerIdx, SigOk]

theorem Notarized.verifyEach_eq_ok {h : BlockHeader D} {peers : PeerSet}
    {l : List (PeerIdx × S)} {u : Unit} :
    Notarized.verifyEach h peers l = .ok u ↔
      ∀ e ∈ l, SigOk peers (.header h) e.1 e.2 := by
  induction l with
  | nil => simp [Notarized.verifyEach]
  | cons e l ih =>
      simp only [Notarized.verifyEach, Outcome.bind_eq_ok, PeerSet.index_eq_ok,
        Outcome.orRaise_eq_ok, verifyHashSignature_eq_ok, ih,
        List.forall_mem_cons]
      constructor
      · rintro ⟨k, hk, _, hsig, hrest⟩
        exact ⟨⟨k, hk, hsig⟩, hrest⟩
      · rintro ⟨⟨k, hk, hsig⟩, hrest⟩
        exact ⟨k, hk, (), hsig, hrest⟩

/-- What `verify_sigs` accepts: enough signatures, and every one of them
valid. -/
theorem Notarized.verifySigs_eq_ok {b : Notarized D S}
    {params : ConsensusParams D} {u : Unit} :
    b.verifySigs params = .ok u ↔ params.peers.len ≤ 255 ∧
      (NumPeers.mk params.peers.len).threshold ≤ b.sigs.entries.length ∧
      ∀ e ∈ b.sigs.entries, SigOk params.peers (.header b.inner) e.1 e.2 := by
  simp only [Notarized.verifySigs, Outcome.bind_eq_ok,
    ConsensusParams.numPeers_eq_ok, Outcome.ensure_eq_ok,
    Notarized.verifyEach_eq_ok]
  constructor
  · rintro ⟨n, ⟨hle, rfl⟩, _, hlen, hall⟩
    exact ⟨hle, hlen, hall⟩
  · rintro ⟨hle, hlen, hall⟩
    exact ⟨_, ⟨hle, rfl⟩, (), hlen, hall⟩

end Bfte
