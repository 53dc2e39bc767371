import Mathlib.Order.Defs.LinearOrder
import Bfte.Core.Types
import Bfte.Lib.Bincode

/-!
# Consensus params, block headers and their hashes

A digest is whatever `blake3` returns. The model is generic in the type `D` of
digests and takes from an instance of `Hashing` what the node calls: the hash
of a header, of a payload, of params and of a round, the encoded length of
params, and the all-zero digest that stands for "no previous block".

A header commits to its parent twice, by hash and by sequence number, and
`doesDirectlyExtend` compares both. The hash alone already pins the parent
down when it has no collisions, which is what `CollisionFree` says.
-/

namespace Bfte

/-- The payload of a block, encoded. -/
abbrev BlockPayloadRaw := List UInt8

/-- A module or core consensus version. -/
structure ConsensusVersion where
  major : ℕ
  minor : ℕ
  deriving Repr, DecidableEq

/-- The rules of a round: who votes, and when that was decided. -/
structure ConsensusParams (D : Type) where
  consensusParamsFormatVersion : ℕ
  initCoreModuleConsVersion : ConsensusVersion
  timestamp : Timestamp
  scheduleRound : BlockRound
  applyRound : BlockRound
  prevMidBlock : Option (BlockRound × D)
  peers : PeerSet
  deriving Repr, DecidableEq

/-- The header of a block. `seq` is a `u32` and wraps. -/
structure BlockHeader (D : Type) where
  headerVersion : ℕ
  padding : List UInt8
  seq : UInt32
  round : BlockRound
  timestamp : Timestamp
  payloadLen : ℕ
  consensusParamsLen : ℕ
  prevBlockHash : D
  consensusParamsHash : D
  payloadHash : D
  deriving Repr, DecidableEq

/-- What the node takes from its hash function and from its encoder. -/
class Hashing (D : Type) where
  /-- The all-zero digest. -/
  zero : D
  blockHash : BlockHeader D → D
  payloadHash : BlockPayloadRaw → D
  paramsHash : ConsensusParams D → D
  paramsLen : ConsensusParams D → ℕ
  /-- The digest of a round, read as a big-endian number. -/
  roundHash : BlockRound → ℕ

/-- The hash function has no collisions, and nothing hashes to zero. -/
class CollisionFree (D : Type) [Hashing D] : Prop where
  blockHash_inj : ∀ h h' : BlockHeader D,
    Hashing.blockHash h = Hashing.blockHash h' → h = h'
  blockHash_ne_zero : ∀ h : BlockHeader D,
    Hashing.blockHash h ≠ (Hashing.zero : D)
  payloadHash_ne_zero : ∀ p : BlockPayloadRaw,
    Hashing.payloadHash p ≠ (Hashing.zero : D)
  payloadHash_inj : ∀ p p' : BlockPayloadRaw,
    Hashing.payloadHash p = (Hashing.payloadHash p' : D) → p = p'
  paramsHash_inj : ∀ p p' : ConsensusParams D,
    Hashing.paramsHash p = (Hashing.paramsHash p' : D) → p = p'

/-- `BlockPayloadRaw::empty`. -/
def BlockPayloadRaw.empty : BlockPayloadRaw := []

/-- `BlockPayloadRaw::len`, a `u32`. -/
def BlockPayloadRaw.len {ε : Type} (payload : BlockPayloadRaw) : Outcome ε ℕ := do
  Outcome.assertThat (payload.length < 2 ^ 32) "Can't fail"
  return payload.length

/-- `BlockPayloadRaw::encode_citems`. How one citem is encoded is left to `encode`. -/
def BlockPayloadRaw.encodeCitems {α : Type} (encode : α → List UInt8)
    (citems : List α) : BlockPayloadRaw :=
  Bincode.encodeSlice encode citems

variable {D : Type} [LinearOrder D] [Hashing D]

/-! ## Params -/

namespace ConsensusParams

/-- `CONSENSUS_PARAMS_CORE_APPLY_DELAY_BASE`. -/
def coreApplyDelayBase : ℕ := 32

/-- `num_peers`. -/
def numPeers {ε : Type} (p : ConsensusParams D) : Outcome ε NumPeers :=
  toNumPeers p.peers.len

/-- `leader_idx`: the hash of the round, modulo the number of peers. -/
def leaderIdx {ε : Type} (p : ConsensusParams D) (round : BlockRound) :
    Outcome ε PeerIdx := do
  let n ← p.numPeers
  Outcome.assertThat (n.total ≠ 0) "attempt to divide by zero"
  return Hashing.roundHash D round % n.total

/-- `consensus_params_schedulign_delay`. -/
def schedulingDelay {ε : Type} (p : ConsensusParams D) : Outcome ε ℕ := do
  let n ← p.numPeers
  return n.total + coreApplyDelayBase

/-- `make_change`: the params decided on in `scheduleRound`. -/
def makeChange {ε : Type} (p : ConsensusParams D) (scheduleRound : BlockRound)
    (blockTimestamp : Timestamp) (peerSet : PeerSet)
    (prevMidBlock : Option (BlockRound × D)) :
    Outcome ε (ConsensusParams D) := do
  let delay ← p.schedulingDelay
  Outcome.assertThat (scheduleRound + delay ≤ BlockRound.MAX)
    "Can't ran out of u64 of rounds"
  return { p with
    peers := peerSet
    timestamp := blockTimestamp
    prevMidBlock := prevMidBlock
    scheduleRound := scheduleRound
    applyRound := scheduleRound + delay }

/-- `find_peer_idx`. -/
def findPeerIdx (p : ConsensusParams D) (k : PeerPubkey) : Option PeerIdx :=
  p.peers.items.findIdx? fun k' => decide (k' = k)

omit [LinearOrder D] [Hashing D] in
theorem findPeerIdx_getElem? {p : ConsensusParams D} {k : PeerPubkey} {i : PeerIdx}
    (h : p.findPeerIdx k = some i) : p.peers.items[i]? = some k := by
  unfold findPeerIdx at h
  obtain ⟨hlt, heq, _⟩ := List.findIdx?_eq_some_iff_getElem.mp h
  rw [List.getElem?_eq_getElem hlt]
  exact congrArg some (of_decide_eq_true heq)

omit [LinearOrder D] [Hashing D] in
@[simp] theorem numPeers_eq_ok {ε : Type} {p : ConsensusParams D} {n : NumPeers} :
    (p.numPeers : Outcome ε NumPeers) = .ok n ↔
      p.peers.len ≤ 255 ∧ n = ⟨p.peers.len⟩ := by
  rw [numPeers, toNumPeers_eq_ok]

omit [LinearOrder D] in
@[simp] theorem leaderIdx_eq_ok {ε : Type} {p : ConsensusParams D}
    {round : BlockRound} {i : PeerIdx} :
    (p.leaderIdx round : Outcome ε PeerIdx) = .ok i ↔
      p.peers.len ≤ 255 ∧ p.peers.len ≠ 0 ∧
        i = Hashing.roundHash D round % p.peers.len := by
  simp only [leaderIdx, Outcome.bind_eq_ok, numPeers_eq_ok,
    Outcome.assertThat_eq_ok, Outcome.pure_eq_ok]
  constructor
  · rintro ⟨n, ⟨hle, rfl⟩, _, hne, rfl⟩
    exact ⟨hle, hne, rfl⟩
  · rintro ⟨hle, hne, rfl⟩
    exact ⟨_, ⟨hle, rfl⟩, (), hne, rfl⟩

end ConsensusParams

/-! ## Headers -/

/-- What `verify_with_content` may object to. -/
inductive VerifyWithContentError where
  | payloadHashMismatch
  | payloadLenMismatch
  | consensusHashMismatch
  | unknownVersion
  | consensusLenMismatch
  deriving Repr, DecidableEq

namespace BlockHeader

/-- The fields that `BlockHeader::new` fills in. -/
def build (prev : Option (BlockHeader D)) (timestamp : Timestamp)
    (round : BlockRound) (params : ConsensusParams D)
    (payload : BlockPayloadRaw) : BlockHeader D where
  headerVersion := 0
  padding := [0, 0, 0]
  seq := (prev.map fun p => p.seq + 1).getD 0
  round := round
  timestamp := timestamp
  payloadLen := payload.length
  consensusParamsLen := Hashing.paramsLen params
  prevBlockHash := (prev.map Hashing.blockHash).getD Hashing.zero
  consensusParamsHash := Hashing.paramsHash params
  payloadHash := Hashing.payloadHash payload

/-- `BlockHeader::new`. Taking the length of the payload may panic. -/
def new {ε : Type} (prev : Option (BlockHeader D)) (timestamp : Timestamp)
    (round : BlockRound) (params : ConsensusParams D)
    (payload : BlockPayloadRaw) : Outcome ε (BlockHeader D) := do
  let payloadLen ← payload.len
  return { build prev timestamp round params payload with payloadLen := payloadLen }

/-- `BlockHeader::new_dummy`: what a peer signs to give up on a round. -/
def newDummy (round : BlockRound) (params : ConsensusParams D) :
    BlockHeader D where
  headerVersion := 0
  padding := [0, 0, 0]
  seq := 0
  round := round
  timestamp := 0
  payloadLen := 0
  consensusParamsLen := Hashing.paramsLen params
  prevBlockHash := Hashing.zero
  consensusParamsHash := Hashing.paramsHash params
  payloadHash := Hashing.zero

/-- `is_dummy`. -/
def isDummy (h : BlockHeader D) : Bool :=
  decide (h.seq = 0 ∧ h.prevBlockHash = Hashing.zero ∧
    h.payloadHash = Hashing.zero ∧ h.payloadLen = 0)

/-- `does_directly_extend`. -/
def doesDirectlyExtend (h : BlockHeader D) (prev : Option (BlockHeader D)) :
    Bool :=
  match prev with
  | some p => decide (p.seq + 1 = h.seq ∧ p.round < h.round ∧
      Hashing.blockHash p = h.prevBlockHash)
  | none => decide (h.seq = 0 ∧ h.prevBlockHash = Hashing.zero)

/-- `verify_with_content`. A payload that comes in has gone through the limit of
`CONSENSUS_BINCODE_CONFIG`, so its length is a `u32`, and so is that of an own one, which
`BlockHeader::new` has taken. -/
def verifyWithContent (h : BlockHeader D) (paramsHash : D) (paramsLen : ℕ)
    (payload : BlockPayloadRaw) : Outcome VerifyWithContentError Unit := do
  if h.isDummy then
    Outcome.ensure (payload.length = 0) .payloadLenMismatch
  else
    Outcome.ensure (Hashing.payloadHash payload = h.payloadHash)
      .payloadHashMismatch
    Outcome.ensure (payload.length = h.payloadLen) .payloadLenMismatch
  Outcome.ensure (h.headerVersion = 0) .unknownVersion
  Outcome.ensure (h.consensusParamsHash = paramsHash) .consensusHashMismatch
  Outcome.ensure (h.consensusParamsLen = paramsLen) .consensusLenMismatch

/-- What a header must be for `verify_with_content` to accept it. -/
structure Fits (h : BlockHeader D) (paramsHash : D) (paramsLen : ℕ)
    (payload : BlockPayloadRaw) : Prop where
  dummy : h.isDummy = true → payload.length = 0
  payload : h.isDummy = false →
    Hashing.payloadHash payload = h.payloadHash ∧ payload.length = h.payloadLen
  version : h.headerVersion = 0
  paramsHash : h.consensusParamsHash = paramsHash
  paramsLen : h.consensusParamsLen = paramsLen

omit [LinearOrder D] in
@[simp] theorem newDummy_round (round : BlockRound) (params : ConsensusParams D) :
    (newDummy round params).round = round := rfl

theorem isDummy_newDummy (round : BlockRound) (params : ConsensusParams D) :
    (newDummy round params).isDummy = true := by
  simp [isDummy, newDummy]

theorem verifyWithContent_eq_ok {h : BlockHeader D} {ph : D} {pl : ℕ}
    {payload : BlockPayloadRaw} {u : Unit} :
    h.verifyWithContent ph pl payload = .ok u ↔ h.Fits ph pl payload := by
  unfold verifyWithContent
  constructor
  · intro hok
    cases hd : h.isDummy with
    | true =>
        simp only [hd, if_true, Outcome.bind_eq_ok, Outcome.ensure_eq_ok,
          exists_const] at hok
        exact ⟨fun _ => hok.1, fun hf => absurd (hd.symm.trans hf) (by simp),
          hok.2.1, hok.2.2.1, hok.2.2.2⟩
    | false =>
        simp only [hd, Bool.false_eq_true, if_false, Outcome.bind_eq_ok,
          Outcome.ensure_eq_ok, exists_const] at hok
        exact ⟨fun ht => absurd (hd.symm.trans ht) (by simp),
          fun _ => ⟨hok.1, hok.2.1⟩, hok.2.2.1, hok.2.2.2.1, hok.2.2.2.2⟩
  · intro hf
    cases hd : h.isDummy with
    | true =>
        simp only [if_true, Outcome.bind_eq_ok, Outcome.ensure_eq_ok,
          exists_const]
        exact ⟨hf.dummy hd, hf.version, hf.paramsHash, hf.paramsLen⟩
    | false =>
        simp only [Bool.false_eq_true, if_false, Outcome.bind_eq_ok,
          Outcome.ensure_eq_ok, exists_const]
        exact ⟨(hf.payload hd).1, (hf.payload hd).2, hf.version, hf.paramsHash,
          hf.paramsLen⟩

theorem not_panicked_verifyWithContent {h : BlockHeader D} {ph : D} {pl : ℕ}
    {payload : BlockPayloadRaw} :
    ¬ (h.verifyWithContent ph pl payload).Panicked := by
  unfold verifyWithContent
  cases h.isDummy <;> simp [Outcome.bind_panicked]

/-! ## Parents -/

theorem doesDirectlyExtend_some {h p : BlockHeader D} :
    h.doesDirectlyExtend (some p) = true ↔ p.seq + 1 = h.seq ∧
      p.round < h.round ∧ Hashing.blockHash p = h.prevBlockHash := by
  simp [doesDirectlyExtend]

theorem doesDirectlyExtend_none {h : BlockHeader D} :
    h.doesDirectlyExtend none = true ↔
      h.seq = 0 ∧ h.prevBlockHash = Hashing.zero := by
  simp [doesDirectlyExtend]

/-- `h` extends `prev`, as a relation. -/
def Extends (h : BlockHeader D) (prev : Option (BlockHeader D)) : Prop :=
  h.doesDirectlyExtend prev = true

instance (h : BlockHeader D) (prev : Option (BlockHeader D)) :
    Decidable (h.Extends prev) :=
  inferInstanceAs (Decidable (h.doesDirectlyExtend prev = true))

theorem Extends.round_lt {h p : BlockHeader D} (he : h.Extends (some p)) :
    p.round < h.round := (doesDirectlyExtend_some.mp he).2.1

/-- Without collisions, a header extends one thing only. -/
theorem Extends.unique [CollisionFree D] {h : BlockHeader D}
    {p q : Option (BlockHeader D)} (hp : h.Extends p) (hq : h.Extends q) :
    p = q := by
  cases p with
  | none =>
      cases q with
      | none => rfl
      | some b =>
          have hz := (doesDirectlyExtend_none.mp hp).2
          have hb := (doesDirectlyExtend_some.mp hq).2.2
          exact absurd (hb.trans hz) (CollisionFree.blockHash_ne_zero b)
  | some a =>
      have ha := (doesDirectlyExtend_some.mp hp).2.2
      cases q with
      | none =>
          have hz := (doesDirectlyExtend_none.mp hq).2
          exact absurd (ha.trans hz) (CollisionFree.blockHash_ne_zero a)
      | some b =>
          have hb := (doesDirectlyExtend_some.mp hq).2.2
          rw [CollisionFree.blockHash_inj a b (ha.trans hb.symm)]

omit [LinearOrder D] in
theorem new_eq_ok {ε : Type} {prev : Option (BlockHeader D)} {t : Timestamp}
    {round : BlockRound} {params : ConsensusParams D} {payload : BlockPayloadRaw}
    {h : BlockHeader D} :
    (new prev t round params payload : Outcome ε _) = .ok h ↔
      payload.length < 2 ^ 32 ∧ build prev t round params payload = h := by
  simp only [new, BlockPayloadRaw.len, Outcome.bind_eq_ok, Outcome.assertThat_eq_ok,
    Outcome.pure_eq_ok]
  constructor
  · rintro ⟨_, ⟨_, hlt, rfl⟩, rfl⟩
    exact ⟨hlt, rfl⟩
  · rintro ⟨hlt, rfl⟩
    exact ⟨_, ⟨(), hlt, rfl⟩, rfl⟩

theorem build_extends {prev : Option (BlockHeader D)} {t : Timestamp}
    {round : BlockRound} {params : ConsensusParams D}
    {payload : BlockPayloadRaw} (h : ∀ p ∈ prev, p.round < round) :
    (build prev t round params payload).Extends prev := by
  cases prev with
  | none => exact doesDirectlyExtend_none.mpr ⟨rfl, rfl⟩
  | some p => exact doesDirectlyExtend_some.mpr ⟨rfl, h p rfl, rfl⟩

end BlockHeader

end Bfte
