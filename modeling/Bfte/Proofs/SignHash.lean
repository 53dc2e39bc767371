import Bfte.Core.RawDigest
import Bfte.Node.SignHash
import Bfte.Proofs.Federation

/-!
# Signatures of correct peers are not forged

Elsewhere a signature is on a message, and one of a correct peer is not forged. What is signed
in fact is 32 bytes. As the tags and encodings tell all messages apart, of one type and of
different ones, forging a signature takes one that `ed25519` does not make for the bytes, or two
inputs that `blake3` maps to the same hash.
-/

namespace Bfte

open TaggedHash (Messages Collides Made)

/-! ## Encodings -/

theorem BlockHeaderBytes.encode_inj {h h' : BlockHeaderBytes} (heq : h.encode = h'.encode) :
    h = h' := by
  obtain ⟨hversion, heq⟩ := List.cons.inj heq
  obtain ⟨hpadding, heq⟩ := toList_append_inj heq
  obtain ⟨hseq, heq⟩ := toList_append_inj heq
  obtain ⟨hround, heq⟩ := toList_append_inj heq
  obtain ⟨htime, heq⟩ := toList_append_inj heq
  obtain ⟨hpayloadLen, heq⟩ := toList_append_inj heq
  obtain ⟨hparamsLen, heq⟩ := toList_append_inj heq
  obtain ⟨hprev, heq⟩ := toList_append_inj heq
  obtain ⟨hparams, heq⟩ := toList_append_inj heq
  exact BlockHeaderBytes.ext hversion hpadding hseq hround htime hpayloadLen hparamsLen hprev
    hparams (Vector.toList_inj.mp heq)

theorem AddressUpdateBytes.encode_inj {u u' : AddressUpdateBytes}
    (heq : u.encode = u'.encode) : u = u' := by
  obtain ⟨htime, heq⟩ := toList_append_inj heq
  obtain ⟨hpubkey, heq⟩ := toList_append_inj heq
  exact AddressUpdateBytes.ext htime hpubkey
    (Vector.toList_inj.mp (List.append_cancel_left heq))

namespace Signable

/-- Two messages with one tag are of one type, and there the encoding tells them apart. -/
theorem encode_inj {m m' : Signable} (htag : m.tag = m'.tag) (heq : m.encode = m'.encode) :
    m = m' := by
  cases m <;> cases m' <;> rw [tag, tag] at htag
  case blockHeader.blockHeader => exact congrArg _ (BlockHeaderBytes.encode_inj heq)
  case finalityVoteUpdate.finalityVoteUpdate => exact congrArg _ (Vector.toList_inj.mp heq)
  case addressUpdate.addressUpdate => exact congrArg _ (AddressUpdateBytes.encode_inj heq)
  all_goals exact absurd htag (by decide)

/-- All that is signed. -/
def messages : Messages Signable 4 := ⟨tag, encode, encode_inj⟩

theorem signHash_eq (blake3 : TaggedHash.Hash) (m : Signable) :
    m.signHash blake3 = messages.signHash bfte blake3 m := rfl

/-- Everything that is hashed to sign a message or to check a signature on it. -/
abbrev hashed (blake3 : TaggedHash.Hash) (m : Signable) : List (List UInt8) :=
  messages.hashed bfte blake3 m

end Signable

/-! ## Numbers and their bytes -/

section

variable {D : Type} {bytes : D → Vector UInt8 32} {digest : Vector UInt8 32 → D}

theorem BlockHeaderBytes.ofHeader_value (hdigest : ∀ v, bytes (digest v) = v)
    (h : BlockHeaderBytes) : ofHeader bytes (h.value digest) = h := by
  refine BlockHeaderBytes.ext ?_ ?_ ?_ ?_ ?_ ?_ ?_ ?_ ?_ ?_
  · exact UInt8.ofNat_toNat
  · refine Vector.ext fun i hi => ?_
    simp [ofHeader, value]
  · have hlt := BigEndian.ofBytes_lt h.seq.toList
    rw [Vector.length_toList] at hlt
    show fixedBytes 4 (UInt32.ofNat (BigEndian.ofBytes h.seq.toList)).toNat = h.seq
    rw [UInt32.toNat_ofNat_of_lt' hlt, fixedBytes_ofBytes]
  · exact fixedBytes_ofBytes _
  · exact fixedBytes_ofBytes _
  · exact fixedBytes_ofBytes _
  · exact fixedBytes_ofBytes _
  · exact hdigest _
  · exact hdigest _
  · exact hdigest _

theorem AddressUpdateBytes.ofUpdate_value (u : AddressUpdateBytes) : ofUpdate u.value = u :=
  AddressUpdateBytes.ext (fixedBytes_ofBytes _) (fixedBytes_ofBytes _) (fixedBytes_ofBytes _)

end

namespace Scheme

variable {D S : Type} [Hashing D] [RawHashing D] [Scheme S] (k : PeerPubkey) (sig : S)

theorem verify_header (h : BlockHeaderBytes) :
    Signing.verify k sig (.header (h.value (RawHashing.digest : _ → D))) =
      verifyStrict k sig ((Signable.blockHeader h).signHash (blake3 S)) := by
  show verifyStrict k sig ((Signable.blockHeader
    (.ofHeader RawHashing.bytes (h.value (RawHashing.digest : _ → D)))).signHash (blake3 S)) = _
  rw [BlockHeaderBytes.ofHeader_value RawHashing.bytes_digest]

theorem verify_finality (round : Vector UInt8 8) :
    Signing.verify k sig (.finality (BigEndian.ofBytes round.toList) : SignMsg D) =
      verifyStrict k sig ((Signable.finalityVoteUpdate round).signHash (blake3 S)) := by
  show verifyStrict k sig ((Signable.finalityVoteUpdate
    (fixedBytes 8 (BigEndian.ofBytes round.toList))).signHash (blake3 S)) = _
  rw [fixedBytes_ofBytes]

omit [Hashing D] [RawHashing D] in
theorem verify_address (u : AddressUpdateBytes) :
    AddressSigning.verify k sig u.value =
      verifyStrict k sig ((Signable.addressUpdate u).signHash (blake3 S)) := by
  show verifyStrict k sig ((Signable.addressUpdate (.ofUpdate u.value)).signHash
    (blake3 S)) = _
  rw [AddressUpdateBytes.ofUpdate_value]

end Scheme

/-! ## A federation with these signatures -/

section

variable {D S X : Type} [LinearOrder D] [Hashing D] [RawHashing D] [Scheme S]

/-- What a peer signs when it is correct: the headers it casts, the finality votes it shows,
and any updates of its address. -/
def Signs (w : World D S) (addresses : ℕ → AddressUpdate → Prop) (i : ℕ) : Signable → Prop
  | .blockHeader h => h.value RawHashing.digest ∈ (w i).node.cast
  | .finalityVoteUpdate round =>
      BigEndian.ofBytes round.toList ∈ (w i).node.consensus.trace.finalitySelfVote
  | .addressUpdate u => addresses i u.value

/-- The op delivers this message with these signatures. -/
inductive Carries : WorldOp D S → Signable → List S → Prop
  | vote (n : ℕ) (j : PeerIdx) (resp : WaitVoteResponse D S) (h : BlockHeaderBytes)
      (hblock : resp.block.inner = h.value RawHashing.digest) :
      Carries ⟨n, .node (.recvVote j resp)⟩ (.blockHeader h) [resp.block.sig]
  | notarized (n : ℕ) (resp : WaitNotarizedBlockResponse D S) (h : BlockHeaderBytes)
      (hblock : resp.block.inner = h.value RawHashing.digest) :
      Carries ⟨n, .node (.recvNotarized resp)⟩ (.blockHeader h)
        (resp.block.sigs.entries.map Prod.snd)
  | finality (n : ℕ) (k : PeerPubkey) (resp : WaitFinalityVoteResponse S)
      (round : Vector UInt8 8) (hround : resp.update = BigEndian.ofBytes round.toList) :
      Carries ⟨n, .node (.recvFinality k resp)⟩ (.finalityVoteUpdate round) [resp.sig]

/-- The op delivers nothing, and leaves the params as they are. -/
def Silent (a : WorldOp D S) : Prop :=
  match a.op with
  | .node (.recvVote _ _) | .node (.recvNotarized _) | .node (.recvFinality _ _)
  | .node (.paramsChange _ _ _) => False
  | _ => True

namespace Federation

variable (F : Federation D) (addresses : ℕ → AddressUpdate → Prop) (w : World D S)

/-- If the signature is one of a correct peer on these bytes, the peer has signed them, as the
bytes of something. -/
def MadeBytes (sig : S) (h : Vector UInt8 32) : Prop :=
  ∀ i < F.params.peers.len, ∀ k ∈ F.params.peers.items[i]?, F.byz k = false →
    Scheme.verifyStrict k sig h = true →
      Made Signable.messages Signable.bfte (Scheme.blake3 S) (Signs w addresses i) h

/-- What is hashed to check the message does not collide with what a correct peer has hashed. -/
def NoCollision (m : Signable) : Prop :=
  ∀ i, F.Correct i → ∀ m', Signs w addresses i m' →
    ¬ Collides (Scheme.blake3 S) (m.hashed (Scheme.blake3 S)) (m'.hashed (Scheme.blake3 S))

/-- `Genuine` as far as `ed25519` and `blake3` go. -/
def GenuineBytes (a : WorldOp D S) : Prop :=
  Silent a ∨ ∃ m sigs, Carries a m sigs ∧ F.NoCollision addresses w m ∧
    ∀ sig ∈ sigs, F.MadeBytes addresses w sig (m.signHash (Scheme.blake3 S))

variable {F addresses w}

theorem MadeBytes.signs {m : Signable} {sig : S}
    (h : F.MadeBytes addresses w sig (m.signHash (Scheme.blake3 S)))
    (hno : F.NoCollision addresses w m) {i : ℕ} (hi : i < F.params.peers.len)
    {k : PeerPubkey} (hk : k ∈ F.params.peers.items[i]?) (hbyz : F.byz k = false)
    (hver : Scheme.verifyStrict k sig (m.signHash (Scheme.blake3 S)) = true) :
    Signs w addresses i m := by
  have hmade := h i hi k hk hbyz hver
  rw [Signable.signHash_eq] at hmade
  rcases hmade.signed with hsigns | ⟨m', hm', hcollides⟩
  · exact hsigns
  · exact absurd hcollides (hno i ⟨k, hk, hbyz⟩ m' hm')

theorem MadeBytes.unforged {h : BlockHeaderBytes} {sig : S}
    (hmade : F.MadeBytes addresses w sig
      ((Signable.blockHeader h).signHash (Scheme.blake3 S)))
    (hno : F.NoCollision addresses w (.blockHeader h)) :
    F.Unforged w (h.value RawHashing.digest) sig := by
  intro i hi k hk hbyz hver
  rw [Scheme.verify_header] at hver
  exact hmade.signs hno hi hk hbyz hver

theorem MadeBytes.unforgedFinality {round : Vector UInt8 8} {sig : S}
    (hmade : F.MadeBytes addresses w sig
      ((Signable.finalityVoteUpdate round).signHash (Scheme.blake3 S)))
    (hno : F.NoCollision addresses w (.finalityVoteUpdate round)) :
    F.UnforgedFinality w (BigEndian.ofBytes round.toList) sig := by
  intro i hi k hk hbyz hver
  rw [Scheme.verify_finality] at hver
  exact hmade.signs hno hi hk hbyz hver

/-- An update that passes for one of a correct peer is one the peer makes, and not a header or
a finality vote of its. -/
theorem MadeBytes.address {u : AddressUpdateBytes} {sig : S}
    (hmade : F.MadeBytes addresses w sig
      ((Signable.addressUpdate u).signHash (Scheme.blake3 S)))
    (hno : F.NoCollision addresses w (.addressUpdate u)) {i : ℕ}
    (hi : i < F.params.peers.len) {k : PeerPubkey} (hk : k ∈ F.params.peers.items[i]?)
    (hbyz : F.byz k = false)
    (hok : (SignedAddressUpdate.mk u.value sig).verifySignature k = .ok ()) :
    addresses i u.value := by
  simp only [SignedAddressUpdate.verifySignature, Outcome.bind_eq_ok, Outcome.ensure_eq_ok]
    at hok
  obtain ⟨_, _, hver⟩ := hok
  rw [Scheme.verify_address] at hver
  exact hmade.signs hno hi hk hbyz hver

theorem genuine_of_silent {a : WorldOp D S} (h : Silent a) : F.Genuine w a := by
  unfold Silent at h
  unfold Genuine
  split
  case h_1 hop => rw [hop] at h; exact h.elim
  case h_2 hop => rw [hop] at h; exact h.elim
  case h_3 hop => rw [hop] at h; exact h.elim
  case h_4 hop => rw [hop] at h; exact h.elim
  case h_5 => trivial

theorem GenuineBytes.genuine {a : WorldOp D S} (h : F.GenuineBytes addresses w a) :
    F.Genuine w a := by
  rcases h with hsilent | ⟨m, sigs, hcarries, hno, hmade⟩
  · exact genuine_of_silent hsilent
  · cases hcarries with
    | vote n j resp h hblock =>
        show F.Unforged w resp.block.inner resp.block.sig
        rw [hblock]
        exact (hmade _ List.mem_cons_self).unforged hno
    | notarized n resp h hblock =>
        intro e he
        rw [hblock]
        exact (hmade _ (List.mem_map_of_mem he)).unforged hno
    | finality n k resp round hround =>
        show F.UnforgedFinality w resp.update resp.sig
        rw [hround]
        exact (hmade _ List.mem_cons_self).unforgedFinality hno

variable [DecidableEq S] {decode : BlockPayloadRaw → Option (List (CItem X))}

/-- A federation gets only where it is taken to get, if no correct peer's signature is on bytes
that the peer has not signed and if no two things that are hashed have the same hash: a
signature on one message is never good for another one, be it of another type. -/
theorem reachable_of_genuineBytes {w₀ : World D S} {ops : List (WorldOp D S)}
    (hstart : F.Started w₀)
    (hops : Trail.Guarded (World.step decode) (F.GenuineBytes addresses) w₀ ops) :
    F.Reachable decode (World.run decode w₀ ops) :=
  ⟨w₀, ops, hstart, hops.mono fun _ _ h => h.genuine, rfl⟩

end Federation

end

/-! ## One peer and its followers -/

/-- A signature that says whose it is, and on which bytes. -/
structure HashSig where
  key : PeerPubkey
  hash : Vector UInt8 32
  deriving Repr, DecidableEq

/-- As many bytes as fit stand for their hash. -/
instance : Scheme HashSig where
  blake3 l := Vector.ofFn fun i => l.getD i 0
  verifyStrict k sig h := decide (sig = ⟨k, h⟩)
  sign k h := ⟨k, h⟩
  validKey k := decide (k ≠ offCurveKey)

def soloFederation : Federation RawDigest where
  params := soloParams
  byz _ := false
  distinct := by decide
  manned := by decide
  few := by decide

/-- The finality vote that a peer shows when it starts. -/
def firstVote : Signable := .finalityVoteUpdate (fixedBytes 8 0)

/-- It is delivered to a follower. -/
def voteArrives : WorldOp RawDigest HashSig :=
  ⟨1, .node (.recvFinality 10
    ⟨0, Scheme.sign 10 (firstVote.signHash (Scheme.blake3 HashSig))⟩)⟩

theorem voteArrives_carries : Carries voteArrives firstVote
    [Scheme.sign 10 (firstVote.signHash (Scheme.blake3 HashSig))] :=
  .finality _ _ _ _ (by decide)

theorem firstVote_noCollision : ¬ Collides (Scheme.blake3 HashSig)
    (firstVote.hashed (Scheme.blake3 HashSig)) (firstVote.hashed (Scheme.blake3 HashSig)) := by
  decide +kernel

theorem soloFederation_seat {i : ℕ} {k : PeerPubkey}
    (h : k ∈ soloFederation.params.peers.items[i]?) : i = 0 ∧ k = 10 := by
  have hitems : soloFederation.params.peers.items = [10] := by decide
  rw [hitems] at h
  cases i with
  | zero => exact ⟨rfl, (Option.some.inj h).symm⟩
  | succ i => cases h

/-- Where the peer has just been started. -/
theorem voteArrives_genuineBytes {w : World RawDigest HashSig} (hcast : (w 0).node.cast = [])
    (hshown : (w 0).node.consensus.trace.finalitySelfVote = [0]) :
    soloFederation.GenuineBytes (fun _ _ => False) w voteArrives := by
  have hfirst : Signs w (fun _ _ => False) 0 firstVote := by
    show BigEndian.ofBytes (fixedBytes 8 0).toList ∈ _
    rw [hshown]
    decide
  have honly : ∀ m, Signs w (fun _ _ => False) 0 m → m = firstVote := by
    intro m hm
    cases m with
    | blockHeader h =>
        have hmem : h.value RawHashing.digest ∈ (w 0).node.cast := hm
        rw [hcast] at hmem
        cases hmem
    | finalityVoteUpdate round =>
        have hmem : BigEndian.ofBytes round.toList ∈
          (w 0).node.consensus.trace.finalitySelfVote := hm
        rw [hshown] at hmem
        rw [firstVote, ← List.mem_singleton.mp hmem, fixedBytes_ofBytes]
    | addressUpdate u => exact hm.elim
  refine .inr ⟨_, _, voteArrives_carries, ?_, ?_⟩
  · rintro i ⟨k, hk, -⟩ m hm
    obtain ⟨rfl, -⟩ := soloFederation_seat hk
    rw [honly m hm]
    exact firstVote_noCollision
  · intro sig _ i _ k hk _ _
    obtain ⟨rfl, -⟩ := soloFederation_seat hk
    exact ⟨firstVote, hfirst, rfl⟩

theorem soloPeer_starts : ∃ c, Consensus.init soloParams (Db.empty : Db RawDigest HashSig)
    (some 10) none = .ok c ∧ c.trace.finalitySelfVote = [0] := by
  refine Outcome.returns_iff.mp ?_
  decide +kernel

theorem soloFollower_starts : ∃ c, Consensus.init soloParams
    (Db.empty : Db RawDigest HashSig) none none = .ok c ∧ c.ourPeerPubkey = none := by
  refine Outcome.returns_iff.mp ?_
  decide +kernel

/-- The vote of the peer arrives at a follower. -/
theorem reachable_of_genuineBytes_firstVote : ∃ w : World RawDigest HashSig,
    (w 1).node.consensus.ourPeerPubkey = none ∧
      soloFederation.Reachable plainDecode (World.run plainDecode w [voteArrives]) := by
  obtain ⟨c₀, hinit₀, hshown⟩ := soloPeer_starts
  obtain ⟨c₁, hinit₁, hnone⟩ := soloFollower_starts
  let w : World RawDigest HashSig := fun i => if i = 0 then .start c₀ else .start c₁
  have hstart : soloFederation.Started w := by
    refine ⟨fun i k hk => ?_, fun i hi => ?_⟩
    · obtain ⟨rfl, rfl⟩ := soloFederation_seat hk
      exact ⟨none, c₀, hinit₀, rfl⟩
    · have hne : i ≠ 0 := by
        rintro rfl
        cases hi
      refine ⟨none, none, c₁, ?_, hinit₁, if_neg hne⟩
      rintro k ⟨⟩
  exact ⟨w, hnone, Federation.reachable_of_genuineBytes hstart
    ⟨voteArrives_genuineBytes rfl hshown, trivial⟩⟩

end Bfte
