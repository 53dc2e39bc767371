import Bfte.App.ProcessCitem
import Bfte.Core.Encoding

/-!
# How citems are encoded

The payload of a block is a list of citems. A citem goes to a module, which the node
knows by a number, and what the module is sent is raw bytes to the node. In `Wire` all
of it is as it is encoded.

How large the types are in memory is up to the compiler. It matters only to the
decoder, which claims that much of its limit for each item of a list.
-/

namespace Bfte

namespace Wire

open Bincode

/-- `InputRaw`, `OutputRaw` and `CItemRaw`. -/
abbrev Raw := List UInt8

structure ModuleDyn (Inner : Type) where
  moduleId : UInt32
  inner : Inner
  deriving Repr, DecidableEq

structure TransactionUnsigned where
  nonce : Vector UInt8 8
  inputs : List (ModuleDyn Raw)
  outputs : List (ModuleDyn Raw)
  deriving Repr, DecidableEq

structure Transaction where
  inner : TransactionUnsigned
  signature : Vector UInt8 32
  deriving Repr, DecidableEq

inductive CItem where
  | peerCItem (citem : ModuleDyn Raw)
  | transaction (tx : Transaction)
  deriving Repr, DecidableEq

/-- `size_of` of the types there are lists of. -/
structure SizeOf where
  input : ℕ
  output : ℕ
  citem : ℕ

/-! ## Encoding -/

/-- `ModuleDyn::encode`, written by hand. -/
def ModuleDyn.encode {Inner : Type} (encodeInner : Inner → List UInt8)
    (m : ModuleDyn Inner) : List UInt8 :=
  encodeVarint m.moduleId.toNat ++ encodeInner m.inner

def TransactionUnsigned.encode (tx : TransactionUnsigned) : List UInt8 :=
  tx.nonce.toList ++ (encodeSlice (ModuleDyn.encode encodeBytes) tx.inputs ++
    encodeSlice (ModuleDyn.encode encodeBytes) tx.outputs)

def Transaction.encode (tx : Transaction) : List UInt8 :=
  tx.inner.encode ++ tx.signature.toList

def CItem.encode : CItem → List UInt8
  | .peerCItem citem => encodeVarint 0 ++ citem.encode encodeBytes
  | .transaction tx => encodeVarint 1 ++ tx.encode

/-! ## Decoding -/

/-- `ModuleDyn::decode`, written by hand. -/
def ModuleDyn.decode {Inner : Type} (decodeInner : Decoder Inner) :
    Decoder (ModuleDyn Inner) := do
  let moduleId ← decodeU32
  let inner ← decodeInner
  return { moduleId, inner }

def TransactionUnsigned.decode (size : SizeOf) : Decoder TransactionUnsigned := do
  let nonce ← decodeArray 8
  let inputs ← decodeVec size.input (ModuleDyn.decode decodeBytes)
  let outputs ← decodeVec size.output (ModuleDyn.decode decodeBytes)
  return { nonce, inputs, outputs }

def Transaction.decode (size : SizeOf) : Decoder Transaction := do
  let inner ← TransactionUnsigned.decode size
  let signature ← decodeArray 32
  return { inner, signature }

def CItem.decode (size : SizeOf) : Decoder CItem :=
  Sum.elim .peerCItem .transaction <$>
    decodeVariant (ModuleDyn.decode decodeBytes) (Transaction.decode size)

/-- `BlockPayloadRaw::decode_citems`. -/
def decodeCitems (size : SizeOf) (payload : BlockPayloadRaw) :
    Except String (List CItem) :=
  (decodeWhole (decodeVec size.citem (CItem.decode size)) payload).mapError fun _ =>
    "Unable to decode block payload"

/-! ## What the node makes of it -/

variable {X : Type}

/-- A citem with the raw bytes as the modules read them. -/
def CItem.value (raw : Raw → X) : CItem → Bfte.CItem X
  | .peerCItem citem => .peerCItem ⟨citem.moduleId.toNat, raw citem.inner⟩
  | .transaction tx =>
      .transaction (tx.inner.inputs.map fun m => ⟨m.moduleId.toNat, raw m.inner⟩)
        (tx.inner.outputs.map fun m => ⟨m.moduleId.toNat, raw m.inner⟩)

/-- The citems of a payload, if it decodes. -/
def citemsOf (size : SizeOf) (raw : Raw → X) (payload : BlockPayloadRaw) :
    Option (List (Bfte.CItem X)) :=
  match decodeCitems size payload with
  | .ok citems => some (citems.map (CItem.value raw))
  | .error _ => none

end Wire

end Bfte
