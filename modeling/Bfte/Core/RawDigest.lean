import Bfte.Core.Concrete
import Bfte.Core.RawParams
import Bfte.Proofs.AddressGossip
import Bfte.Proofs.ParamsEncoding

/-!
# Digests of bytes to compute with

As `ListDigest`, but the digest of params spells out the bytes they are sent as. Params
with numbers that no bytes stand for are not sent anywhere; they are spelled out as
before, so that there are no collisions.
-/

namespace Bfte

open ConsensusParamsBytes Bincode

/-! ## Params and their bytes -/

theorem toList_append_inj {n : ℕ} {v w : Vector UInt8 n} {x y : List UInt8}
    (h : v.toList ++ x = w.toList ++ y) : v = w ∧ x = y := by
  obtain ⟨hv, hx⟩ := List.append_inj h (by simp)
  exact ⟨Vector.toList_inj.mp hv, hx⟩

theorem flatMap_toList_injective {n : ℕ} {l l' : List (Vector UInt8 n)}
    (hlen : l.length = l'.length) (h : l.flatMap Vector.toList = l'.flatMap Vector.toList) :
    l = l' := by
  induction l generalizing l' with
  | nil => exact (List.length_eq_zero_iff.mp hlen.symm).symm
  | cons v l ih =>
      cases l' with
      | nil => cases hlen
      | cons w l' =>
          obtain ⟨rfl, hrest⟩ := toList_append_inj h
          rw [ih (Nat.succ.inj hlen) hrest]

/-- How long a list is encoded says how many items there are. -/
theorem encodeSlice_toList_injective {l l' : List (Vector UInt8 32)}
    (h : encodeSlice Vector.toList l = encodeSlice Vector.toList l') : l = l' := by
  have hbytes : ∀ l : List (Vector UInt8 32),
      (l.flatMap Vector.toList).length = 32 * l.length := by
    intro l
    induction l with
    | nil => rfl
    | cons v l ih =>
        rw [List.flatMap_cons, List.length_append, ih, Vector.length_toList,
          List.length_cons, Nat.mul_succ, Nat.add_comm]
  have hlen : l.length = l'.length := by
    have htotal := congrArg List.length h
    rw [encodeSlice, encodeSlice, List.length_append, List.length_append, hbytes, hbytes,
      length_encodeVarint, length_encodeVarint] at htotal
    split_ifs at htotal <;> omega
  rw [encodeSlice, encodeSlice, hlen] at h
  exact flatMap_toList_injective hlen (List.append_cancel_left h)

namespace ConsensusParamsBytes

theorem encodeMidBlock_append_inj {m m' : Option (Vector UInt8 8 × Vector UInt8 32)}
    {x y : List UInt8} (h : encodeMidBlock m ++ x = encodeMidBlock m' ++ y) :
    m = m' ∧ x = y := by
  cases m with
  | none =>
      cases m' with
      | none => exact ⟨rfl, (List.cons.inj h).2⟩
      | some b => exact absurd (List.cons.inj h).1 (by decide)
  | some a =>
      cases m' with
      | none => exact absurd (List.cons.inj h).1 (by decide)
      | some b =>
          have hrest : a.1.toList ++ a.2.toList ++ x = b.1.toList ++ b.2.toList ++ y :=
            (List.cons.inj h).2
          rw [List.append_assoc, List.append_assoc] at hrest
          obtain ⟨hround, hrest⟩ := toList_append_inj hrest
          obtain ⟨hhash, hrest⟩ := toList_append_inj hrest
          exact ⟨congrArg some (Prod.ext hround hhash), hrest⟩

/-- Params with the same bytes are the same. -/
theorem encode_injective : Function.Injective encode := by
  intro p q h
  obtain ⟨hversion, h⟩ := List.cons.inj h
  obtain ⟨hmajor, h⟩ := toList_append_inj h
  obtain ⟨hminor, h⟩ := toList_append_inj h
  obtain ⟨htime, h⟩ := toList_append_inj h
  obtain ⟨hschedule, h⟩ := toList_append_inj h
  obtain ⟨happly, h⟩ := toList_append_inj h
  obtain ⟨hmid, h⟩ := encodeMidBlock_append_inj h
  exact ConsensusParamsBytes.ext hversion (Prod.ext hmajor hminor) htime hschedule happly
    hmid (encodeSlice_toList_injective h)

end ConsensusParamsBytes

/-! ## The digests -/

/-- A digest that spells out what was hashed. -/
def RawDigest : Type := List ℕ

namespace RawDigest

instance : LinearOrder RawDigest := inferInstanceAs (LinearOrder (List ℕ))

instance : Repr RawDigest := inferInstanceAs (Repr (List ℕ))

/-- The digest with these bytes, and the bytes of a digest that has 32. -/
def ofVector (v : Vector UInt8 32) : RawDigest := v.toList.map UInt8.toNat

def toVector (d : RawDigest) : Vector UInt8 32 :=
  Vector.ofFn fun i => UInt8.ofNat (List.getD d i 0)

theorem toVector_ofVector (v : Vector UInt8 32) : toVector (ofVector v) = v := by
  refine Vector.ext fun i hi => ?_
  simp [toVector, ofVector]

/-- The bytes that params would be sent as. -/
def raw (p : ConsensusParams RawDigest) : ConsensusParamsBytes := .ofParams toVector p

theorem raw_value (p : ConsensusParamsBytes) : raw (p.value ofVector) = p :=
  ConsensusParamsBytes.ofParams_value toVector_ofVector p

/-- What is spelled out. -/
def spell (l : List ℕ) : RawDigest := l

/-- The digest of params: that of their bytes, if there are any. -/
def ofParams (p : ConsensusParams RawDigest) : RawDigest :=
  if (raw p).value ofVector = p then spell (ListDigest.ofPayload (raw p).toRaw)
  else spell (ListDigest.ofParams p)

theorem ofParams_value (p : ConsensusParamsBytes) :
    ofParams (p.value ofVector) = spell (ListDigest.ofPayload p.toRaw) := by
  have hraw := raw_value p
  rw [ofParams, hraw]
  exact if_pos rfl

instance : Hashing RawDigest where
  zero := spell []
  blockHash h := spell (ListDigest.ofHeader h)
  payloadHash p := spell (ListDigest.ofPayload p)
  paramsHash := ofParams
  paramsLen p := (raw p).toRaw.length
  roundHash := ListDigest.ofRound

theorem ofPayload_inj {p p' : BlockPayloadRaw}
    (h : ListDigest.ofPayload p = ListDigest.ofPayload p') : p = p' :=
  ListDigest.map_toNat_inj (List.cons.inj h).2

theorem ofParams_inj {p p' : ConsensusParams RawDigest}
    (h : ofParams p = ofParams p') : p = p' := by
  unfold ofParams at h
  split_ifs at h with hp hp' hp'
  · rw [← hp, ← hp', encode_injective (ofPayload_inj h)]
  · exact absurd (List.cons.inj h).1 (by decide)
  · exact absurd (List.cons.inj h).1 (by decide)
  · exact ListDigest.ofParams_inj h

instance : CollisionFree RawDigest where
  blockHash_inj _ _ h := ListDigest.ofHeader_inj h
  blockHash_ne_zero _ := List.cons_ne_nil _ _
  payloadHash_ne_zero _ := List.cons_ne_nil _ _
  payloadHash_inj _ _ h := ofPayload_inj h
  paramsHash_inj _ _ := ofParams_inj

instance : RawHashing RawDigest where
  digest := ofVector
  bytes := toVector
  bytes_digest := toVector_ofVector
  paramsHash_value := ofParams_value
  paramsLen_value p := by
    show (raw (p.value ofVector)).toRaw.length = _
    rw [raw_value]

end RawDigest

/-- A signature that says who signed what: a header, a finality vote or an address. -/
inductive RawSig where
  | msg (k : PeerPubkey) (m : SignMsg RawDigest)
  | address (k : PeerPubkey) (update : AddressUpdate)
  deriving DecidableEq

instance : Signing RawDigest RawSig where
  verify k sig m := decide (sig = .msg k m)
  sign k m := .msg k m
  validKey k := decide (k ≠ offCurveKey)

instance : AddressSigning RawSig where
  verify k sig update := decide (sig = .address k update)
  validKey k := decide (k ≠ offCurveKey)

/-! ## A federation of one -/

/-- The params of a federation with the one peer 10. -/
def soloBytes : ConsensusParamsBytes :=
  ⟨0, (Vector.replicate 2 0, Vector.replicate 2 0), Vector.replicate 8 0,
    Vector.replicate 8 0, Vector.replicate 8 0, none, [fixedBytes 32 10]⟩

def soloParams : ConsensusParams RawDigest := soloBytes.value RawDigest.ofVector

/-- A signed address of that peer. -/
def soloAddress : SignedAddressUpdate RawSig :=
  ⟨⟨1, 10, .iroh 5⟩, .address 10 ⟨1, 10, .iroh 5⟩⟩

end Bfte
