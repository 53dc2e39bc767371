import Mathlib.Data.List.Lex
import Mathlib.Data.Prod.Lex
import Bfte.Core.Signed

/-!
# Digests and signatures to compute with

An instance of the two interfaces the model is generic in, for running it on
concrete inputs. A digest spells out what it is the digest of, so there are no
collisions; a signature names its key and its message, so there are no forgeries.
The leaders of the first rounds are those of the real hash function.
-/

namespace Bfte

/-- A digest that spells out what was hashed; the empty one is zero. -/
abbrev ListDigest := List ℕ

/-- A signature that says who signed what. -/
abbrev PlainSig := PeerPubkey × SignMsg ListDigest

namespace ListDigest

/-- A list, preceded by its length. -/
def framed (l : List ℕ) : List ℕ := l.length :: l

theorem framed_append_inj {l l' r r' : List ℕ}
    (h : framed l ++ r = framed l' ++ r') : l = l' ∧ r = r' := by
  injection h with hlen happ
  exact List.append_inj happ hlen

/-- The fields of a header, one after the other. -/
def ofHeader (h : BlockHeader ListDigest) : ListDigest :=
  1 :: h.headerVersion :: h.seq.toNat :: h.round :: h.timestamp ::
    h.payloadLen :: h.consensusParamsLen ::
    (framed (h.padding.map UInt8.toNat) ++ (framed h.prevBlockHash ++
      (framed h.consensusParamsHash ++ h.payloadHash)))

def ofPayload (p : BlockPayloadRaw) : ListDigest := 2 :: p.map UInt8.toNat

/-- The optional mid block of params. -/
def ofMidBlock : Option (BlockRound × ListDigest) → List ℕ
  | none => framed []
  | some (round, hash) => framed (round :: hash)

def ofParams (p : ConsensusParams ListDigest) : ListDigest :=
  3 :: p.consensusParamsFormatVersion :: p.initCoreModuleConsVersion.major ::
    p.initCoreModuleConsVersion.minor :: p.timestamp :: p.scheduleRound ::
    p.applyRound :: (ofMidBlock p.prevMidBlock ++ p.peers.items)

/-- `blake3` of the first rounds, as the number `leader_idx` reduces. -/
def ofRound : BlockRound → ℕ
  | 0 => 0x71e0a99173564931c0b8acc52d2685a8e39c64dc52e3d02390fdac2a12b155cb
  | 1 => 0x68eae1066fca29e3236b08eb29b363fbe204ec65e3dcca8aa404c32e8080ad15
  | 2 => 0x45f1a93d108f229fa8fb4bc476bab4dd3fecd20ee16f8ba6d77f6c744e02061d
  | 3 => 0x14366f8f654a63fe0afb59fe6a1ac6366e6eb6350e44d46ef15da6684e7474b0
  | 4 => 0x8a3e7873284773a1ef13b3bc75a0ef23725afc5b17cd07f4be99e66e1e5d022f
  | n => n

instance : Hashing ListDigest where
  zero := []
  blockHash := ofHeader
  payloadHash := ofPayload
  paramsHash := ofParams
  paramsLen p := (ofParams p).length
  roundHash := ofRound

theorem map_toNat_inj {l l' : List UInt8}
    (h : l.map UInt8.toNat = l'.map UInt8.toNat) : l = l' :=
  List.map_injective_iff.mpr (fun _ _ => UInt8.toNat_inj.mp) h

theorem ofHeader_inj {h h' : BlockHeader ListDigest}
    (heq : ofHeader h = ofHeader h') : h = h' := by
  obtain ⟨ver, pad, seq, round, time, plen, clen, prev, ph, pay⟩ := h
  obtain ⟨ver', pad', seq', round', time', plen', clen', prev', ph', pay'⟩ := h'
  simp only [ofHeader, List.cons.injEq, true_and] at heq
  obtain ⟨rfl, hseq, rfl, rfl, rfl, rfl, hrest⟩ := heq
  obtain ⟨hpad, hrest⟩ := framed_append_inj hrest
  obtain ⟨hprev, hrest⟩ := framed_append_inj hrest
  obtain ⟨hph, hpay⟩ := framed_append_inj hrest
  rw [map_toNat_inj hpad, UInt32.toNat_inj.mp hseq, hprev, hph, hpay]

theorem ofMidBlock_append_inj {m m' : Option (BlockRound × ListDigest)}
    {r r' : List ℕ} (h : ofMidBlock m ++ r = ofMidBlock m' ++ r') :
    m = m' ∧ r = r' := by
  rcases m with _ | ⟨round, hash⟩ <;> rcases m' with _ | ⟨round', hash'⟩ <;>
    obtain ⟨hm, rfl⟩ := framed_append_inj h
  · exact ⟨rfl, rfl⟩
  · cases hm
  · cases hm
  · cases hm
    exact ⟨rfl, rfl⟩

theorem ofParams_inj {p p' : ConsensusParams ListDigest}
    (heq : ofParams p = ofParams p') : p = p' := by
  obtain ⟨fv, ⟨ma, mi⟩, t, sr, ar, mid, ⟨peers⟩⟩ := p
  obtain ⟨fv', ⟨ma', mi'⟩, t', sr', ar', mid', ⟨peers'⟩⟩ := p'
  simp only [ofParams, List.cons.injEq, true_and] at heq
  obtain ⟨rfl, rfl, rfl, rfl, rfl, rfl, hrest⟩ := heq
  obtain ⟨rfl, rfl⟩ := ofMidBlock_append_inj hrest
  rfl

instance : CollisionFree ListDigest where
  blockHash_inj _ _ := ofHeader_inj
  blockHash_ne_zero _ := List.cons_ne_nil _ _
  payloadHash_ne_zero _ := List.cons_ne_nil _ _
  payloadHash_inj _ _ h := map_toNat_inj (List.cons.inj h).2
  paramsHash_inj _ _ := ofParams_inj

end ListDigest

instance : Signing ListDigest PlainSig where
  verify k sig m := decide (sig = (k, m))
  sign k m := (k, m)
  validKey _ := true

instance : LawfulSigning ListDigest PlainSig where
  verify_sign _ _ := decide_eq_true rfl

/-! ## Inputs to run the model on -/

/-- The params of a federation that starts with the given keys. -/
def plainParams (keys : List PeerPubkey) : ConsensusParams ListDigest where
  consensusParamsFormatVersion := 0
  initCoreModuleConsVersion := ⟨0, 0⟩
  timestamp := 0
  scheduleRound := 0
  applyRound := 0
  prevMidBlock := none
  peers := ⟨keys⟩

/-- A header signed with a key. -/
def signedBy (k : PeerPubkey) (h : BlockHeader ListDigest) :
    Signed ListDigest PlainSig := ⟨h, Signing.sign k (SignMsg.header h)⟩

/-- A header with the signatures of the peers at some indices of a peer set. -/
def notarizedBy (keys : List PeerPubkey) (is : List PeerIdx)
    (h : BlockHeader ListDigest) : Notarized ListDigest PlainSig :=
  ⟨h, .ofList (is.map fun i =>
    (i, Signing.sign (keys.getD i 0) (SignMsg.header h)))⟩

end Bfte
