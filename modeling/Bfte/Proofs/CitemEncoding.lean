import Bfte.App.CitemEncoding

/-!
# Citems come out of a payload as they went in

What is encoded and what is decoded is the same format, type by type from the raw bytes
up to the payload. The one thing that can go wrong is the decoder's limit, and it is
generous: a byte of the payload never stands for more than one item in memory or one
length.
-/

namespace Bfte

namespace Wire

open Bincode

/-! ## The formats -/

def ModuleDyn.format {Inner : Type} (f : Format Inner) : Format (ModuleDyn Inner) :=
  (Format.u32.pair f).comap fun m => (m.moduleId, m.inner)

def TransactionUnsigned.format (size : SizeOf) : Format TransactionUnsigned :=
  ((Format.bytes 8 8).pair (((ModuleDyn.format .byteVec).vec size.input).pair
    ((ModuleDyn.format .byteVec).vec size.output))).comap fun tx =>
      (tx.nonce, tx.inputs, tx.outputs)

def Transaction.format (size : SizeOf) : Format Transaction :=
  ((TransactionUnsigned.format size).pair (Format.bytes 32 32)).comap fun tx =>
    (tx.inner, tx.signature)

/-- The variant a citem is. -/
def CItem.toSum : CItem → ModuleDyn Raw ⊕ Transaction
  | .peerCItem citem => .inl citem
  | .transaction tx => .inr tx

def CItem.format (size : SizeOf) : Format CItem :=
  ((ModuleDyn.format .byteVec).variant (Transaction.format size)).comap CItem.toSum

def citemsFormat (size : SizeOf) : Format (List CItem) :=
  (CItem.format size).vec size.citem

/-! ## The decoders read them -/

theorem decodes_moduleDyn {Inner : Type} {decodeInner : Decoder Inner} {f : Format Inner}
    (hd : Decodes decodeInner f) :
    Decodes (ModuleDyn.decode decodeInner) (ModuleDyn.format f) := by
  have hdecode : ModuleDyn.decode decodeInner =
      (fun p => ⟨p.1, p.2⟩) <$> decodePair decodeU32 decodeInner := by
    simp [ModuleDyn.decode, decodePair]
  rw [hdecode]
  exact (decodes_u32.pair hd).comap (fun _ => rfl) fun _ => rfl

theorem decodes_transactionUnsigned (size : SizeOf) :
    Decodes (TransactionUnsigned.decode size) (TransactionUnsigned.format size) := by
  have hdecode : TransactionUnsigned.decode size = (fun p => ⟨p.1, p.2.1, p.2.2⟩) <$>
      decodePair (decodeArray 8)
        (decodePair (decodeVec size.input (ModuleDyn.decode decodeBytes))
          (decodeVec size.output (ModuleDyn.decode decodeBytes))) := by
    simp [TransactionUnsigned.decode, decodePair]
  have hitem := decodes_moduleDyn decodes_bytes
  rw [hdecode]
  exact ((decodes_array 8).pair ((hitem.vec size.input).pair (hitem.vec size.output))).comap
    (fun _ => rfl) fun _ => rfl

theorem decodes_transaction (size : SizeOf) :
    Decodes (Transaction.decode size) (Transaction.format size) := by
  have hdecode : Transaction.decode size = (fun p => ⟨p.1, p.2⟩) <$>
      decodePair (TransactionUnsigned.decode size) (decodeArray 32) := by
    simp [Transaction.decode, decodePair]
  rw [hdecode]
  exact ((decodes_transactionUnsigned size).pair (decodes_array 32)).comap
    (fun _ => rfl) fun _ => rfl

theorem decodes_citem (size : SizeOf) : Decodes (CItem.decode size) (CItem.format size) := by
  refine ((decodes_moduleDyn decodes_bytes).variant (decodes_transaction size)).comap
    (fun citem => ?_) fun v => ?_
  · cases citem <;> rfl
  · cases v <;> rfl

/-! ## The encoders write them -/

theorem encodes_moduleDyn {Inner : Type} {encodeInner : Inner → List UInt8}
    {f : Format Inner} (he : Encodes encodeInner f) :
    Encodes (ModuleDyn.encode encodeInner) (ModuleDyn.format f) :=
  (encodes_u32.pair he).comap _

theorem cost_moduleDyn_pos (m : ModuleDyn Raw) : 0 < (ModuleDyn.format .byteVec).cost m := by
  show 0 < 4 + (8 + m.inner.length)
  omega

theorem encodes_transactionUnsigned (size : SizeOf) :
    Encodes TransactionUnsigned.encode (TransactionUnsigned.format size) :=
  ((encodes_array 8 8).pair
    (((encodes_moduleDyn encodes_bytes).vec cost_moduleDyn_pos size.input).pair
      ((encodes_moduleDyn encodes_bytes).vec cost_moduleDyn_pos size.output))).comap _

theorem encodes_transaction (size : SizeOf) :
    Encodes Transaction.encode (Transaction.format size) :=
  ((encodes_transactionUnsigned size).pair (encodes_array 32 32)).comap _

theorem encodes_citem (size : SizeOf) : Encodes CItem.encode (CItem.format size) := by
  intro citem hneed
  have h := ((encodes_moduleDyn encodes_bytes).variant (encodes_transaction size)).comap
    CItem.toSum citem hneed
  cases citem with
  | peerCItem citem => exact h
  | transaction tx => exact h

theorem cost_citem_pos (size : SizeOf) (citem : CItem) :
    0 < (CItem.format size).cost citem := by
  show 0 < 4 + _
  omega

theorem encodes_citems (size : SizeOf) :
    Encodes (encodeSlice CItem.encode) (citemsFormat size) :=
  (encodes_citem size).vec (cost_citem_pos size) size.citem

/-! ## The round trip -/

/-- The size of a list of citems as the decoder counts it: the most it has claimed at any
one time. -/
def decoderSize (size : SizeOf) (citems : List CItem) : ℕ := (citemsFormat size).need citems

theorem decodeCitems_eq_ok {size : SizeOf} {payload : BlockPayloadRaw}
    {citems : List CItem} : decodeCitems size payload = .ok citems ↔
      decodeWhole (decodeVec size.citem (CItem.decode size)) payload = .ok citems := by
  unfold decodeCitems
  cases decodeWhole (decodeVec size.citem (CItem.decode size)) payload with
  | ok l =>
      constructor
      · intro h
        cases h
        rfl
      · intro h
        cases h
        rfl
  | error e =>
      constructor
      · intro h
        cases h
      · intro h
        cases h

/-- Citems come back from their payload just when they are not too large for the
decoder. -/
theorem decodeCitems_encode_iff {size : SizeOf} {citems : List CItem} :
    decodeCitems size (BlockPayloadRaw.encodeCitems CItem.encode citems) = .ok citems ↔
      decoderSize size citems ≤ STANDARD_LIMIT_16M :=
  decodeCitems_eq_ok.trans
    (decodeWhole_encode ((decodes_citem size).vec size.citem) (encodes_citems size))

/-- Citems come back from their payload, and from nothing longer, as long as the decoder's
limit is not reached. -/
theorem decodeCitems_encodeCitems (size : SizeOf) (citems : List CItem)
    (hsize : decoderSize size citems ≤ STANDARD_LIMIT_16M) :
    decodeCitems size (BlockPayloadRaw.encodeCitems CItem.encode citems) = .ok citems ∧
    ∀ extra, extra ≠ [] →
      decodeCitems size (BlockPayloadRaw.encodeCitems CItem.encode citems ++ extra) =
        .error "Unable to decode block payload" := by
  refine ⟨decodeCitems_encode_iff.mpr hsize, fun extra hextra => ?_⟩
  have h := decodeWhole_encode_append ((decodes_citem size).vec size.citem)
    (encodes_citems size) hsize hextra
  rw [decodeCitems, BlockPayloadRaw.encodeCitems, h]
  rfl

/-- One item of a peer, and a transaction with one input. -/
def twoCitems : List CItem :=
  [.peerCItem ⟨0, [1, 2, 3]⟩,
    .transaction ⟨⟨Vector.replicate 8 1, [⟨300, [4]⟩], []⟩, Vector.replicate 32 2⟩]

theorem decodeCitems_twoCitems :
    decodeCitems ⟨24, 24, 88⟩ (BlockPayloadRaw.encodeCitems CItem.encode twoCitems) =
      .ok twoCitems :=
  (decodeCitems_encodeCitems ⟨24, 24, 88⟩ twoCitems (by decide)).1

/-! ## What is too large for the decoder -/

theorem bounded_citem {size : SizeOf} {k : ℕ} (hk : 8 ≤ k) (hinput : size.input ≤ k)
    (houtput : size.output ≤ k) : Bounded k CItem.encode (CItem.format size) := by
  have hmodule : Bounded k (ModuleDyn.encode encodeBytes) (ModuleDyn.format .byteVec) :=
    ((bounded_u32 (by omega)).pair (bounded_bytes hk)).comap _
  have hne : ∀ m : ModuleDyn Raw, m.encode encodeBytes ≠ [] := fun m h =>
    encodeVarint_ne_nil _ (List.append_eq_nil_iff.mp h).1
  have hunsigned : Bounded k TransactionUnsigned.encode (TransactionUnsigned.format size) :=
    ((bounded_array (by omega) 8).pair ((hmodule.vec hk hinput hne).pair
      (hmodule.vec hk houtput hne))).comap _
  have htx : Bounded k Transaction.encode (Transaction.format size) :=
    (hunsigned.pair (bounded_array (by omega) 32)).comap _
  intro citem
  have h := ((hmodule.variant (by omega) htx).comap CItem.toSum) citem
  cases citem with
  | peerCItem citem => exact h
  | transaction tx => exact h

/-- A byte of a payload claims no more than the largest item there are lists of, or 8. -/
theorem decoderSize_le {size : SizeOf} {k : ℕ} (hk : 8 ≤ k) (hinput : size.input ≤ k)
    (houtput : size.output ≤ k) (hcitem : size.citem ≤ k) (citems : List CItem) :
    decoderSize size citems ≤
      k * (BlockPayloadRaw.encodeCitems CItem.encode citems).length := by
  refine (bounded_citem hk hinput houtput).vec hk hcitem (fun citem h => ?_) citems
  cases citem with
  | peerCItem citem => exact encodeVarint_ne_nil _ (List.append_eq_nil_iff.mp h).1
  | transaction tx => exact encodeVarint_ne_nil _ (List.append_eq_nil_iff.mp h).1

/-- With no type over 256 bytes, no payload up to 16 MiB is too large, and the node gets
out of it what was put in. -/
theorem citemsOf_encodeCitems {X : Type} {size : SizeOf} (raw : Raw → X)
    (hinput : size.input ≤ 256) (houtput : size.output ≤ 256) (hcitem : size.citem ≤ 256)
    {citems : List CItem}
    (hlen : (BlockPayloadRaw.encodeCitems CItem.encode citems).length ≤ 2 ^ 24) :
    citemsOf size raw (BlockPayloadRaw.encodeCitems CItem.encode citems) =
      some (citems.map (CItem.value raw)) := by
  have hle := decoderSize_le (by decide : 8 ≤ 256) hinput houtput hcitem citems
  have hlimit : decoderSize size citems ≤ STANDARD_LIMIT_16M := by
    calc decoderSize size citems
        ≤ 256 * (BlockPayloadRaw.encodeCitems CItem.encode citems).length := hle
      _ ≤ 256 * 2 ^ 24 := Nat.mul_le_mul_left 256 hlen
      _ = STANDARD_LIMIT_16M := rfl
  rw [citemsOf, decodeCitems_encode_iff.mpr hlimit]

end Wire

end Bfte
