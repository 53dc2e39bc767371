import Bfte.Core.Block
import Bfte.Lib.Format

/-!
# How params are encoded

`ConsensusParamsBytes` is `ConsensusParams` as it is in memory, each number an array of
bytes, which is also how it is encoded: the fields in order and nothing between them. Only
the list of peers has its length in front.
-/

namespace Bfte

open Bincode

/-- The limit of `CONSENSUS_BINCODE_CONFIG`, in bytes. -/
def STANDARD_LIMIT_16M : ℕ := 0x100000000

/-- `decode_whole` under `CONSENSUS_BINCODE_CONFIG`. -/
def decodeWhole {α : Type} (decode : Decoder α) (src : List UInt8) :
    Except DecodeError α := do
  let (t, consumed) ← decodeFromSlice STANDARD_LIMIT_16M decode src
  if consumed ≠ src.length then throw (.other "leftover bytes")
  return t

theorem decodeWhole_iff {α : Type} {decode : Decoder α} {src : List UInt8} {a : α} :
    decodeWhole decode src = .ok a ↔
      decodeFromSlice STANDARD_LIMIT_16M decode src = .ok (a, src.length) := by
  unfold decodeWhole
  cases decodeFromSlice STANDARD_LIMIT_16M decode src with
  | error e =>
      constructor <;> intro h <;> cases h
  | ok p =>
      obtain ⟨b, n⟩ := p
      by_cases hn : n = src.length
      · subst hn
        simp [bind, Except.bind, pure, Except.pure]
      · simp [bind, Except.bind, throw, throwThe, MonadExceptOf.throw, hn]

theorem decodeWhole_leftover {α : Type} {decode : Decoder α} {src : List UInt8} {a : α}
    {n : ℕ} (h : decodeFromSlice STANDARD_LIMIT_16M decode src = .ok (a, n))
    (hn : n ≠ src.length) : decodeWhole decode src = .error (.other "leftover bytes") := by
  rw [decodeWhole, h]
  exact if_pos hn

section

variable {α : Type} {decode : Decoder α} {f : Format α}

theorem decodeWhole_eq_ok (hd : Decodes decode f) {src : List UInt8} {a : α} :
    decodeWhole decode src = .ok a ↔ f.form a src ∧ f.need a ≤ STANDARD_LIMIT_16M := by
  rw [decodeWhole_iff, decodeFromSlice_eq_ok hd]
  constructor
  · rintro ⟨x, rest, rfl, hlen, hform, hneed⟩
    obtain rfl : rest = [] := by simpa using hlen
    rw [List.append_nil]
    exact ⟨hform, hneed⟩
  · rintro ⟨hform, hneed⟩
    exact ⟨src, [], (List.append_nil src).symm, rfl, hform, hneed⟩

/-- What was encoded is decoded again, just when the limit allows it. -/
theorem decodeWhole_encode (hd : Decodes decode f) {encode : α → List UInt8}
    (he : Encodes encode f) {a : α} :
    decodeWhole decode (encode a) = .ok a ↔ f.need a ≤ STANDARD_LIMIT_16M := by
  rw [decodeWhole_eq_ok hd]
  refine and_iff_right_of_imp fun hneed => he a (Nat.lt_of_le_of_lt hneed ?_)
  decide

/-- It is not decoded when anything stands behind it. -/
theorem decodeWhole_encode_append (hd : Decodes decode f) {encode : α → List UInt8}
    (he : Encodes encode f) {a : α} (hneed : f.need a ≤ STANDARD_LIMIT_16M)
    {extra : List UInt8} (hextra : extra ≠ []) :
    decodeWhole decode (encode a ++ extra) = .error (.other "leftover bytes") := by
  have hform := he a (Nat.lt_of_le_of_lt hneed (by decide))
  refine decodeWhole_leftover ((decodeFromSlice_eq_ok hd).mpr
    ⟨encode a, extra, rfl, rfl, hform, hneed⟩) fun hlen => hextra ?_
  simpa using hlen

end

/-! ## Params -/

@[ext]
structure ConsensusParamsBytes where
  consensusParamsFormatVersion : UInt8
  /-- The major version and the minor one. -/
  initCoreModuleConsVersion : Vector UInt8 2 × Vector UInt8 2
  timestamp : Vector UInt8 8
  scheduleRound : Vector UInt8 8
  applyRound : Vector UInt8 8
  prevMidBlock : Option (Vector UInt8 8 × Vector UInt8 32)
  peers : List (Vector UInt8 32)
  deriving Repr, DecidableEq

/-- `ConsensusParamsDecodeError`. -/
inductive ConsensusParamsDecodeError where
  | bincode (source : DecodeError)
  | mismatchedFormatVersion (version : UInt8)
  deriving Repr, DecidableEq

namespace ConsensusParamsBytes

/-- The params as numbers, given how digests are read. -/
def value {D : Type} (digest : Vector UInt8 32 → D) (p : ConsensusParamsBytes) :
    ConsensusParams D where
  consensusParamsFormatVersion := p.consensusParamsFormatVersion.toNat
  initCoreModuleConsVersion :=
    ⟨BigEndian.ofBytes p.initCoreModuleConsVersion.1.toList,
      BigEndian.ofBytes p.initCoreModuleConsVersion.2.toList⟩
  timestamp := BigEndian.ofBytes p.timestamp.toList
  scheduleRound := BigEndian.ofBytes p.scheduleRound.toList
  applyRound := BigEndian.ofBytes p.applyRound.toList
  prevMidBlock := p.prevMidBlock.map fun b => (BigEndian.ofBytes b.1.toList, digest b.2)
  peers := ⟨p.peers.map fun k => BigEndian.ofBytes k.toList⟩

/-! ## Encoding -/

/-- An optional round and block hash. -/
def encodeMidBlock : Option (Vector UInt8 8 × Vector UInt8 32) → List UInt8
  | none => [0]
  | some (round, hash) => 1 :: (round.toList ++ hash.toList)

/-- The derived `Encode`. -/
def encode (p : ConsensusParamsBytes) : List UInt8 :=
  p.consensusParamsFormatVersion :: (p.initCoreModuleConsVersion.1.toList ++
    (p.initCoreModuleConsVersion.2.toList ++ (p.timestamp.toList ++
      (p.scheduleRound.toList ++ (p.applyRound.toList ++
        (encodeMidBlock p.prevMidBlock ++ encodeSlice Vector.toList p.peers))))))

/-- The derived `Decode`. -/
def decode : Decoder ConsensusParamsBytes := do
  let consensusParamsFormatVersion ← decodeU8
  let major ← decodeArray 2
  let minor ← decodeArray 2
  let timestamp ← decodeArray 8
  let scheduleRound ← decodeArray 8
  let applyRound ← decodeArray 8
  let prevMidBlock ← decodeOption (decodePair (decodeArray 8) (decodeArray 32))
  let peers ← decodeVec 32 (decodeArray 32)
  return {
    consensusParamsFormatVersion
    initCoreModuleConsVersion := (major, minor)
    timestamp
    scheduleRound
    applyRound
    prevMidBlock
    peers }

/-- `to_raw`. -/
def toRaw (p : ConsensusParamsBytes) : List UInt8 := p.encode

/-- `from_raw`. -/
def fromRaw (raw : List UInt8) :
    Except ConsensusParamsDecodeError ConsensusParamsBytes := do
  let decoded ← (decodeWhole decode raw).mapError .bincode
  if decoded.consensusParamsFormatVersion ≠ 0 then
    throw (.mismatchedFormatVersion decoded.consensusParamsFormatVersion)
  return decoded

/-- `hash`, which is `blake3` of the encoding. -/
def hash {D : Type} (blake3 : List UInt8 → D) (p : ConsensusParamsBytes) : D :=
  blake3 p.encode

end ConsensusParamsBytes

end Bfte
