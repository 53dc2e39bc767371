import Bfte.Core.RawParams
import Bfte.Lib.TaggedHash
import Bfte.Node.PeerAddress

/-!
# What is signed

Three types are `Signable`: headers, finality votes and address updates. Each has a tag, and
what is signed is the hash of `bfte`, the tag and the hash of the encoding, 32 bytes. The types
are given here as they are in memory, each number an array of bytes, which is also how they are
encoded.

`Scheme` is what the node has from `blake3` and `ed25519_dalek`, both on bytes. From it come the
instances that are taken for granted elsewhere.
-/

namespace Bfte

/-! ## The types -/

@[ext]
structure BlockHeaderBytes where
  headerVersion : UInt8
  padding : Vector UInt8 3
  seq : Vector UInt8 4
  round : Vector UInt8 8
  timestamp : Vector UInt8 8
  payloadLen : Vector UInt8 4
  consensusParamsLen : Vector UInt8 4
  prevBlockHash : Vector UInt8 32
  consensusParamsHash : Vector UInt8 32
  payloadHash : Vector UInt8 32
  deriving Repr, DecidableEq

namespace BlockHeaderBytes

variable {D : Type}

/-- The derived `Encode`. -/
def encode (h : BlockHeaderBytes) : List UInt8 :=
  h.headerVersion :: (h.padding.toList ++ (h.seq.toList ++ (h.round.toList ++
    (h.timestamp.toList ++ (h.payloadLen.toList ++ (h.consensusParamsLen.toList ++
      (h.prevBlockHash.toList ++ (h.consensusParamsHash.toList ++
        h.payloadHash.toList))))))))

/-- The header as numbers, given how digests are read. -/
def value (digest : Vector UInt8 32 → D) (h : BlockHeaderBytes) : BlockHeader D where
  headerVersion := h.headerVersion.toNat
  padding := h.padding.toList
  seq := UInt32.ofNat (BigEndian.ofBytes h.seq.toList)
  round := BigEndian.ofBytes h.round.toList
  timestamp := BigEndian.ofBytes h.timestamp.toList
  payloadLen := BigEndian.ofBytes h.payloadLen.toList
  consensusParamsLen := BigEndian.ofBytes h.consensusParamsLen.toList
  prevBlockHash := digest h.prevBlockHash
  consensusParamsHash := digest h.consensusParamsHash
  payloadHash := digest h.payloadHash

/-- A header as it is in memory, given the bytes of digests. -/
def ofHeader (bytes : D → Vector UInt8 32) (h : BlockHeader D) : BlockHeaderBytes where
  headerVersion := UInt8.ofNat h.headerVersion
  padding := Vector.ofFn fun i => h.padding.getD i 0
  seq := fixedBytes 4 h.seq.toNat
  round := fixedBytes 8 h.round
  timestamp := fixedBytes 8 h.timestamp
  payloadLen := fixedBytes 4 h.payloadLen
  consensusParamsLen := fixedBytes 4 h.consensusParamsLen
  prevBlockHash := bytes h.prevBlockHash
  consensusParamsHash := bytes h.consensusParamsHash
  payloadHash := bytes h.payloadHash

end BlockHeaderBytes

@[ext]
structure AddressUpdateBytes where
  timestamp : Vector UInt8 8
  peerPubkey : Vector UInt8 32
  /-- What `PeerAddress::Iroh` holds. -/
  addr : Vector UInt8 32
  deriving Repr, DecidableEq

namespace AddressUpdateBytes

/-- The derived `Encode`. The only variant of `PeerAddress` is number 0. -/
def encode (u : AddressUpdateBytes) : List UInt8 :=
  u.timestamp.toList ++ (u.peerPubkey.toList ++ (Bincode.encodeVarint 0 ++ u.addr.toList))

def value (u : AddressUpdateBytes) : AddressUpdate where
  timestamp := BigEndian.ofBytes u.timestamp.toList
  peerPubkey := BigEndian.ofBytes u.peerPubkey.toList
  addr := .iroh (BigEndian.ofBytes u.addr.toList)

def ofUpdate (u : AddressUpdate) : AddressUpdateBytes where
  timestamp := fixedBytes 8 u.timestamp
  peerPubkey := fixedBytes 32 u.peerPubkey
  addr := match u.addr with
    | .iroh addr => fixedBytes 32 addr

end AddressUpdateBytes

/-- What implements `Signable`. -/
inductive Signable where
  | blockHeader (h : BlockHeaderBytes)
  | finalityVoteUpdate (round : Vector UInt8 8)
  | addressUpdate (update : AddressUpdateBytes)
  deriving Repr, DecidableEq

namespace Signable

/-- `TAG`. -/
def tag : Signable → Vector UInt8 4
  | .blockHeader _ => #v['b'.toUInt8, 'l'.toUInt8, 'h'.toUInt8, 'd'.toUInt8]
  | .finalityVoteUpdate _ => #v['f'.toUInt8, 'u'.toUInt8, 'r'.toUInt8, 'u'.toUInt8]
  | .addressUpdate _ => #v['a'.toUInt8, 'd'.toUInt8, 'u'.toUInt8, 'p'.toUInt8]

/-- What `Hashable::hash` writes to the hasher. -/
def encode : Signable → List UInt8
  | .blockHeader h => h.encode
  | .finalityVoteUpdate round => round.toList
  | .addressUpdate u => u.encode

/-- What comes first of all. -/
def bfte : List UInt8 := ['b'.toUInt8, 'f'.toUInt8, 't'.toUInt8, 'e'.toUInt8]

/-- `Hashable::hash`. -/
def hash (blake3 : TaggedHash.Hash) (m : Signable) : Vector UInt8 32 := blake3 m.encode

/-- `sign_hash`. -/
def signHash (blake3 : TaggedHash.Hash) (m : Signable) : Vector UInt8 32 :=
  blake3 (bfte ++ m.tag.toList ++ (m.hash blake3).toList)

/-- A header or a finality vote, given the bytes of digests. -/
def ofSignMsg {D : Type} (bytes : D → Vector UInt8 32) : SignMsg D → Signable
  | .header h => .blockHeader (.ofHeader bytes h)
  | .finality round => .finalityVoteUpdate (fixedBytes 8 round)

end Signable

/-! ## The scheme -/

/-- `blake3::Hasher`, and `ed25519_dalek` on the 32 bytes of a hash. -/
class Scheme (S : Type) where
  blake3 : TaggedHash.Hash
  verifyStrict : PeerPubkey → S → Vector UInt8 32 → Bool
  sign : PeerPubkey → Vector UInt8 32 → S
  /-- `VerifyingKey::try_from` accepts the key. -/
  validKey : PeerPubkey → Bool

namespace Scheme

variable {D S : Type} [Hashing D] [RawHashing D] [Scheme S]

/-- `sign_with` and `verify_signature` for headers and finality votes. -/
instance signing : Signing D S where
  verify k sig m :=
    verifyStrict k sig ((Signable.ofSignMsg RawHashing.bytes m).signHash (blake3 S))
  sign k m := sign k ((Signable.ofSignMsg RawHashing.bytes m).signHash (blake3 S))
  validKey := validKey S

/-- `verify_signature` for address updates. -/
instance addressSigning : AddressSigning S where
  verify k sig u :=
    verifyStrict k sig ((Signable.addressUpdate (.ofUpdate u)).signHash (blake3 S))
  validKey := validKey S

end Scheme

end Bfte
