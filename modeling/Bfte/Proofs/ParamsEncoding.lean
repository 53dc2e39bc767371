import Bfte.Core.Encoding

/-!
# Params and the bytes they came in

Of the bytes of encoded params all but one field are where they are whatever the values,
and are what they stand for. That one is the number of peers, which the decoder also
takes in a longer form than the encoder writes. Params that were decoded from such bytes
are encoded as other bytes, and have another hash than the one the bytes were asked for
by.
-/

namespace Bfte

open Bincode

/-! ## The format of params -/

namespace ConsensusParamsBytes

/-- All fields in the order they are encoded in. -/
abbrev Fields := UInt8 × Vector UInt8 2 × Vector UInt8 2 × Vector UInt8 8 ×
  Vector UInt8 8 × Vector UInt8 8 × Option (Vector UInt8 8 × Vector UInt8 32) ×
  List (Vector UInt8 32)

def fields (p : ConsensusParamsBytes) : Fields :=
  (p.consensusParamsFormatVersion, p.initCoreModuleConsVersion.1,
    p.initCoreModuleConsVersion.2, p.timestamp, p.scheduleRound, p.applyRound,
    p.prevMidBlock, p.peers)

def ofFields : Fields → ConsensusParamsBytes
  | (version, major, minor, timestamp, scheduleRound, applyRound, prevMidBlock, peers) =>
      ⟨version, (major, minor), timestamp, scheduleRound, applyRound, prevMidBlock, peers⟩

/-- `Option<(BlockRound, BlockHash)>`. -/
def midBlockFormat : Format (Option (Vector UInt8 8 × Vector UInt8 32)) :=
  ((Format.bytes 8 8).pair (.bytes 32 32)).option

/-- `Vec<PeerPubkey>`. -/
def peersFormat : Format (List (Vector UInt8 32)) := (Format.bytes 32 32).vec 32

def format : Format ConsensusParamsBytes :=
  (Format.u8.pair ((Format.bytes 2 2).pair ((Format.bytes 2 2).pair
    ((Format.bytes 8 8).pair ((Format.bytes 8 8).pair ((Format.bytes 8 8).pair
      (midBlockFormat.pair peersFormat))))))).comap fields

theorem decodes_params : Decodes decode format := by
  have hdecode : decode = ofFields <$> decodePair decodeU8 (decodePair (decodeArray 2)
      (decodePair (decodeArray 2) (decodePair (decodeArray 8) (decodePair (decodeArray 8)
        (decodePair (decodeArray 8) (decodePair
          (decodeOption (decodePair (decodeArray 8) (decodeArray 32)))
          (decodeVec 32 (decodeArray 32)))))))) := by
    simp [decode, decodePair, ofFields]
  have hmid := ((decodes_array 8).pair (decodes_array 32)).option
  have hpeers := (decodes_array 32).vec 32
  rw [hdecode]
  refine Decodes.comap (decodes_u8.pair ((decodes_array 2).pair ((decodes_array 2).pair
    ((decodes_array 8).pair ((decodes_array 8).pair ((decodes_array 8).pair
      (hmid.pair hpeers))))))) (fun _ => rfl) fun _ => rfl

theorem form_midBlock {o : Option (Vector UInt8 8 × Vector UInt8 32)} {x : List UInt8} :
    midBlockFormat.form o x ↔ x = encodeMidBlock o := by
  cases o with
  | none => exact Iff.rfl
  | some b =>
      constructor
      · rintro ⟨_, rfl, _, _, rfl, rfl, rfl⟩
        rfl
      · rintro rfl
        exact ⟨_, rfl, _, _, rfl, rfl, rfl⟩

theorem encodes_midBlock : Encodes encodeMidBlock midBlockFormat := fun _ _ =>
  form_midBlock.mpr rfl

theorem encodes_peers : Encodes (encodeSlice Vector.toList) peersFormat :=
  (encodes_array 32 32).vec (fun _ => Nat.succ_pos 31) 32

theorem encodes_params : Encodes encode format :=
  (encodes_u8.pair ((encodes_array 2 2).pair ((encodes_array 2 2).pair
    ((encodes_array 8 8).pair ((encodes_array 8 8).pair ((encodes_array 8 8).pair
      (encodes_midBlock.pair encodes_peers))))))).comap fields

/-- What the decoder claims of its limit: all fields, and 8 for the number of peers. -/
def claimed (p : ConsensusParamsBytes) : ℕ :=
  38 + (if p.prevMidBlock.isSome then 40 else 0) + 32 * p.peers.length

theorem itemsNeed_peers (l : List (Vector UInt8 32)) :
    (Format.bytes 32 32).itemsNeed 32 l = 32 * l.length := by
  induction l with
  | nil => rfl
  | cons k l ih =>
      rw [Format.itemsNeed, ih, List.length_cons]
      show max (32 + l.length * 32) (32 + 32 * l.length) = 32 * (l.length + 1)
      omega

theorem need_eq_claimed (p : ConsensusParamsBytes) : format.need p = p.claimed := by
  have hpeers : peersFormat.need p.peers = 8 + 32 * p.peers.length := by
    show 8 + max (p.peers.length * 32) ((Format.bytes 32 32).itemsNeed 32 p.peers) = _
    rw [itemsNeed_peers]
    omega
  have hmid :
      midBlockFormat.need p.prevMidBlock = 1 + (if p.prevMidBlock.isSome then 40 else 0) ∧
      midBlockFormat.cost p.prevMidBlock = 1 + (if p.prevMidBlock.isSome then 40 else 0) := by
    cases p.prevMidBlock with
    | none => exact ⟨rfl, rfl⟩
    | some b => exact ⟨rfl, rfl⟩
  show max 1 (1 + max 2 (2 + max 2 (2 + max 8 (8 + max 8 (8 + max 8 (8 +
    max (midBlockFormat.need p.prevMidBlock) (midBlockFormat.cost p.prevMidBlock +
      peersFormat.need p.peers))))))) = p.claimed
  rw [hpeers, hmid.1, hmid.2, claimed]
  omega

/-! ## Where the number of peers stands -/

/-- Everything before the peers. -/
def head (p : ConsensusParamsBytes) : List UInt8 :=
  p.consensusParamsFormatVersion :: (p.initCoreModuleConsVersion.1.toList ++
    (p.initCoreModuleConsVersion.2.toList ++ (p.timestamp.toList ++
      (p.scheduleRound.toList ++ (p.applyRound.toList ++ encodeMidBlock p.prevMidBlock)))))

theorem encode_eq (p : ConsensusParamsBytes) :
    p.encode = p.head ++ (encodeVarint p.peers.length ++ p.peers.flatMap Vector.toList) := by
  simp [encode, head, encodeSlice]

theorem itemsForm_peers {l : List (Vector UInt8 32)} {x : List UInt8} :
    (Format.bytes 32 32).itemsForm l x ↔ x = l.flatMap Vector.toList := by
  induction l generalizing x with
  | nil => exact Iff.rfl
  | cons k l ih =>
      constructor
      · rintro ⟨y, z, rfl, hz, rfl⟩
        rw [ih.mp hz, List.flatMap_cons]
      · rintro rfl
        exact ⟨_, _, rfl, ih.mpr rfl, List.flatMap_cons⟩

/-- Only the number of peers may be encoded in different ways. -/
theorem form_iff {p : ConsensusParamsBytes} {raw : List UInt8} :
    format.form p raw ↔ ∃ len, (Format.varint 8 8).form p.peers.length len ∧
      raw = p.head ++ (len ++ p.peers.flatMap Vector.toList) := by
  constructor
  · rintro ⟨_, _, rfl, ⟨_, _, rfl, ⟨_, _, rfl, ⟨_, _, rfl, ⟨_, _, rfl, ⟨_, _, rfl,
      ⟨_, _, hmid, ⟨len, _, hlen, hitems, rfl⟩, rfl⟩, rfl⟩, rfl⟩, rfl⟩, rfl⟩, rfl⟩, rfl⟩
    rw [form_midBlock.mp hmid, itemsForm_peers.mp hitems]
    refine ⟨len, hlen, ?_⟩
    simp [head, fields]
  · rintro ⟨len, hlen, rfl⟩
    refine ⟨_, _, rfl, ⟨_, _, rfl, ⟨_, _, rfl, ⟨_, _, rfl, ⟨_, _, rfl, ⟨_, _, rfl,
      ⟨_, _, form_midBlock.mpr rfl, ⟨len, _, hlen, itemsForm_peers.mpr rfl, rfl⟩,
        rfl⟩, rfl⟩, rfl⟩, rfl⟩, rfl⟩, rfl⟩, ?_⟩
    simp [head, fields]

/-- Where the number of peers stands in the encoding: the byte before the optional mid
block says whether there is one. -/
def lenOffset (raw : List UInt8) : ℕ := if raw[29]? = some 0 then 30 else 70

theorem head_eq (p : ConsensusParamsBytes) : ∃ front : List UInt8,
    front.length = 29 ∧ p.head = front ++ encodeMidBlock p.prevMidBlock := by
  refine ⟨p.consensusParamsFormatVersion :: (p.initCoreModuleConsVersion.1.toList ++
    (p.initCoreModuleConsVersion.2.toList ++ (p.timestamp.toList ++
      (p.scheduleRound.toList ++ p.applyRound.toList)))), by simp, by simp [head]⟩

theorem lenOffset_eq (p : ConsensusParamsBytes) (rest : List UInt8) :
    lenOffset (p.head ++ rest) = p.head.length := by
  obtain ⟨front, hlen, hhead⟩ := p.head_eq
  rw [hhead, lenOffset, List.append_assoc, List.getElem?_append_right hlen.le, hlen,
    List.length_append, hlen]
  cases p.prevMidBlock with
  | none => rfl
  | some b =>
      rw [if_neg (by simp [encodeMidBlock])]
      simp [encodeMidBlock]

/-! ## Params and their hash -/

theorem fromRaw_eq_ok {raw : List UInt8} {p : ConsensusParamsBytes} :
    fromRaw raw = .ok p ↔
      decodeWhole decode raw = .ok p ∧ p.consensusParamsFormatVersion = 0 := by
  unfold fromRaw
  cases decodeWhole decode raw with
  | error e =>
      constructor
      · intro h
        cases h
      · rintro ⟨h, -⟩
        cases h
  | ok q =>
      by_cases hq : q.consensusParamsFormatVersion = 0
      · simp [Except.mapError, bind, Except.bind, pure, Except.pure, hq]
        rintro rfl
        exact hq
      · simp [Except.mapError, bind, Except.bind, throw, throwThe, MonadExceptOf.throw, hq]
        rintro rfl
        exact hq

/-- Different params have different bytes, and different hashes if the hash function is
free of collisions. -/
theorem hash_injective {D : Type} {blake3 : List UInt8 → D}
    (hblake3 : Function.Injective blake3) {p q : ConsensusParamsBytes}
    (hp : p.claimed ≤ STANDARD_LIMIT_16M) (hq : q.claimed ≤ STANDARD_LIMIT_16M)
    (h : p.hash blake3 = q.hash blake3) : p = q := by
  have hbytes : p.encode = q.encode := hblake3 h
  rw [← need_eq_claimed] at hp hq
  have hp' := (decodeWhole_encode decodes_params encodes_params).mpr hp
  rw [hbytes, (decodeWhole_encode decodes_params encodes_params).mpr hq] at hp'
  exact (Except.ok.inj hp').symm

theorem ofBytes_toList_injective (n : ℕ) :
    Function.Injective fun v : Vector UInt8 n => BigEndian.ofBytes v.toList :=
  fun v w h => Vector.toList_inj.mp (BigEndian.ofBytes_injective (by simp) h)

/-- The numbers say all there is to say. -/
theorem value_injective {D : Type} {digest : Vector UInt8 32 → D}
    (hdigest : Function.Injective digest) : Function.Injective (value digest) := by
  intro p q h
  have hmid : Function.Injective fun b : Vector UInt8 8 × Vector UInt8 32 =>
      (BigEndian.ofBytes b.1.toList, digest b.2) := fun b c hbc =>
    Prod.ext (ofBytes_toList_injective 8 (congrArg Prod.fst hbc))
      (hdigest (congrArg Prod.snd hbc))
  have hcore := congrArg ConsensusParams.initCoreModuleConsVersion h
  have hpeers := congrArg (fun v => v.peers.items) h
  refine ConsensusParamsBytes.ext
    (UInt8.toNat_inj.mp (congrArg ConsensusParams.consensusParamsFormatVersion h))
    (Prod.ext (ofBytes_toList_injective 2 (congrArg ConsensusVersion.major hcore))
      (ofBytes_toList_injective 2 (congrArg ConsensusVersion.minor hcore)))
    (ofBytes_toList_injective 8 (congrArg ConsensusParams.timestamp h))
    (ofBytes_toList_injective 8 (congrArg ConsensusParams.scheduleRound h))
    (ofBytes_toList_injective 8 (congrArg ConsensusParams.applyRound h))
    (Option.map_injective hmid (congrArg ConsensusParams.prevMidBlock h))
    (List.map_injective_iff.mpr (ofBytes_toList_injective 32) hpeers)

/-- Params that came from bytes are encoded as these bytes, and so have their hash, just
when the number of peers stands there in its shortest form. Params of the version there
is are read back from their bytes just when the decoder may claim what it takes. -/
theorem params_keep_identity_iff {D : Type} (blake3 : List UInt8 → D) :
    (∀ raw p, fromRaw raw = .ok p →
      (p.toRaw = raw ∧ p.hash blake3 = blake3 raw ↔
        IsShortest (raw.drop (lenOffset raw)))) ∧
    (∀ p, p.consensusParamsFormatVersion = 0 →
      (fromRaw p.toRaw = .ok p ↔ p.claimed ≤ STANDARD_LIMIT_16M)) := by
  constructor
  · intro raw p hraw
    have hform := ((decodeWhole_eq_ok decodes_params).mp (fromRaw_eq_ok.mp hraw).1).1
    obtain ⟨len, hlen, rfl⟩ := form_iff.mp hform
    rw [lenOffset_eq, List.drop_left, ← eq_encodeVarint_iff _ hlen, toRaw, hash, encode_eq]
    constructor
    · rintro ⟨h, -⟩
      exact (List.append_cancel_right (List.append_cancel_left h)).symm
    · rintro rfl
      exact ⟨rfl, rfl⟩
  · intro p hversion
    rw [fromRaw_eq_ok, and_iff_left hversion, toRaw,
      decodeWhole_encode decodes_params encodes_params, need_eq_claimed]

/-- Params with one peer, and a longer form of that one. -/
def onePeer : ConsensusParamsBytes :=
  ⟨0, (Vector.replicate 2 0, Vector.replicate 2 0), Vector.replicate 8 0,
    Vector.replicate 8 0, Vector.replicate 8 0, none, [Vector.replicate 32 7]⟩

def onePeerLong : List UInt8 :=
  List.replicate 30 0 ++ [251, 0, 1] ++ List.replicate 32 7

/-- It is decoded, and is encoded as something else. -/
theorem onePeerLong_decoded :
    fromRaw onePeerLong = .ok onePeer ∧ onePeer.toRaw ≠ onePeerLong := by
  constructor
  · have hlen : (Format.varint 8 8).form 1 [251, 0, 1] := by
      refine ⟨251, [0, 1], rfl, ?_⟩
      rw [Format.afterTag, if_neg (by decide), if_pos (by decide)]
      exact ⟨rfl, rfl⟩
    refine fromRaw_eq_ok.mpr ⟨(decodeWhole_eq_ok decodes_params).mpr
      ⟨form_iff.mpr ⟨_, hlen, by rfl⟩, ?_⟩, rfl⟩
    rw [need_eq_claimed]
    decide
  · intro h
    have hlength := congrArg List.length h
    simp [toRaw, encode_eq, head, onePeer, onePeerLong, encodeMidBlock, encodeVarint]
      at hlength

end ConsensusParamsBytes

end Bfte
