import Bfte.Core.Encoding

/-!
# Params that are sent around as bytes

Consensus params are kept as numbers and digests, and are sent to others as the bytes
they are encoded to. Their hash is that of these bytes, by the same function that hashes
a payload; that and how a digest is 32 bytes is what `RawHashing` adds to `Hashing`.

A number of the model has no bound and its counterpart in the source has: params that
come from bytes are `Representable`.
-/

namespace Bfte

/-- What the node takes from its hash function where params are bytes. -/
class RawHashing (D : Type) [Hashing D] where
  /-- The digest with these bytes. -/
  digest : Vector UInt8 32 → D
  /-- The bytes of a digest. -/
  bytes : D → Vector UInt8 32
  bytes_digest : ∀ v, bytes (digest v) = v
  /-- `ConsensusParams::hash` is `ConsensusParamsRaw::hash` of the encoding. -/
  paramsHash_value : ∀ p : ConsensusParamsBytes,
    Hashing.paramsHash (p.value digest) = Hashing.payloadHash p.toRaw
  /-- `ConsensusParams::len`. -/
  paramsLen_value : ∀ p : ConsensusParamsBytes,
    Hashing.paramsLen (p.value digest) = p.toRaw.length

/-- A number as bytes, the highest first. -/
def fixedBytes (width n : ℕ) : Vector UInt8 width :=
  ⟨(Bincode.bigEndian width n).toArray, Bincode.length_bigEndian width n⟩

@[simp] theorem toList_fixedBytes (width n : ℕ) :
    (fixedBytes width n).toList = Bincode.bigEndian width n := rfl

theorem fixedBytes_ofBytes {width : ℕ} (v : Vector UInt8 width) :
    fixedBytes width (BigEndian.ofBytes v.toList) = v := by
  refine Vector.toList_inj.mp ?_
  have h := Bincode.bigEndian_ofBytes v.toList
  rwa [Vector.length_toList] at h

/-- Params as they are in memory, given the bytes of digests. -/
def ConsensusParamsBytes.ofParams {D : Type} (bytes : D → Vector UInt8 32)
    (p : ConsensusParams D) : ConsensusParamsBytes where
  consensusParamsFormatVersion := UInt8.ofNat p.consensusParamsFormatVersion
  initCoreModuleConsVersion :=
    (fixedBytes 2 p.initCoreModuleConsVersion.major,
      fixedBytes 2 p.initCoreModuleConsVersion.minor)
  timestamp := fixedBytes 8 p.timestamp
  scheduleRound := fixedBytes 8 p.scheduleRound
  applyRound := fixedBytes 8 p.applyRound
  prevMidBlock := p.prevMidBlock.map fun b => (fixedBytes 8 b.1, bytes b.2)
  peers := p.peers.items.map (fixedBytes 32)

theorem ConsensusParamsBytes.ofParams_value {D : Type} {bytes : D → Vector UInt8 32}
    {digest : Vector UInt8 32 → D} (h : ∀ v, bytes (digest v) = v)
    (p : ConsensusParamsBytes) : ofParams bytes (p.value digest) = p := by
  have hmid : (fun b : BlockRound × D => (fixedBytes 8 b.1, bytes b.2)) ∘
      (fun b : Vector UInt8 8 × Vector UInt8 32 =>
        (BigEndian.ofBytes b.1.toList, digest b.2)) = id := by
    funext b
    exact Prod.ext (fixedBytes_ofBytes b.1) (h b.2)
  have hpeers : fixedBytes 32 ∘ (fun k : Vector UInt8 32 => BigEndian.ofBytes k.toList) =
      id := funext fixedBytes_ofBytes
  refine ConsensusParamsBytes.ext ?_ ?_ ?_ ?_ ?_ ?_ ?_
  · exact UInt8.ofNat_toNat
  · exact Prod.ext (fixedBytes_ofBytes _) (fixedBytes_ofBytes _)
  · exact fixedBytes_ofBytes _
  · exact fixedBytes_ofBytes _
  · exact fixedBytes_ofBytes _
  · show (p.prevMidBlock.map _).map _ = p.prevMidBlock
    rw [Option.map_map, hmid, Option.map_id_fun, id]
  · show (p.peers.map _).map _ = p.peers
    rw [List.map_map, hpeers, List.map_id]

variable {D : Type} [Hashing D] [RawHashing D]

namespace ConsensusParams

/-- The params as they are in memory. -/
def toBytes (p : ConsensusParams D) : ConsensusParamsBytes := .ofParams RawHashing.bytes p

/-- `to_raw`. -/
def toRaw (p : ConsensusParams D) : List UInt8 := p.toBytes.toRaw

/-- `from_raw`. -/
def fromRaw (raw : List UInt8) :
    Except ConsensusParamsDecodeError (ConsensusParams D) := do
  let p ← ConsensusParamsBytes.fromRaw raw
  return p.value RawHashing.digest

/-- Every number fits into the bytes it has. -/
def Representable (p : ConsensusParams D) : Prop :=
  p.toBytes.value RawHashing.digest = p

theorem toBytes_value (p : ConsensusParamsBytes) :
    (p.value (RawHashing.digest (D := D))).toBytes = p :=
  ConsensusParamsBytes.ofParams_value RawHashing.bytes_digest p

theorem representable_value (p : ConsensusParamsBytes) :
    (p.value (RawHashing.digest (D := D))).Representable := by
  unfold Representable
  rw [toBytes_value]

/-- The hash of params is that of their bytes. -/
theorem Representable.paramsHash {p : ConsensusParams D} (h : p.Representable) :
    Hashing.paramsHash p = Hashing.payloadHash p.toRaw := by
  have hp := RawHashing.paramsHash_value (D := D) p.toBytes
  rwa [h] at hp

theorem Representable.paramsLen {p : ConsensusParams D} (h : p.Representable) :
    Hashing.paramsLen p = p.toRaw.length := by
  have hp := RawHashing.paramsLen_value (D := D) p.toBytes
  rwa [h] at hp

theorem fromRaw_eq_ok {raw : List UInt8} {p : ConsensusParams D} :
    fromRaw raw = .ok p ↔
      ∃ b, ConsensusParamsBytes.fromRaw raw = .ok b ∧ b.value RawHashing.digest = p := by
  unfold fromRaw
  cases ConsensusParamsBytes.fromRaw raw with
  | error e =>
      constructor
      · intro h
        cases h
      · rintro ⟨b, h, -⟩
        cases h
  | ok b =>
      constructor
      · intro h
        exact ⟨b, rfl, Except.ok.inj h⟩
      · rintro ⟨b', h, rfl⟩
        cases h
        rfl

end ConsensusParams

end Bfte
