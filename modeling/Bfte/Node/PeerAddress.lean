import Bfte.Core.Signed

/-!
# Where peers can be reached

Peers tell each other at which address they are, in updates signed by the peer they are
about. A node takes updates from anyone and keeps the latest one of each peer. Whoever
signs an update also chooses its timestamp, and the key it is checked against comes with
the update itself.
-/

namespace Bfte

/-- An iroh node id, 32 bytes. -/
abbrev IrohAddress := ℕ

inductive PeerAddress where
  | iroh (addr : IrohAddress)
  deriving Repr, DecidableEq

structure AddressUpdate where
  timestamp : Timestamp
  peerPubkey : PeerPubkey
  addr : PeerAddress
  deriving Repr, DecidableEq

/-- What is taken from the signature scheme, for updates tagged `adup`. -/
class AddressSigning (S : Type) where
  verify : PeerPubkey → S → AddressUpdate → Bool
  /-- `VerifyingKey::try_from` accepts the key. -/
  validKey : PeerPubkey → Bool

/-- `Signed<AddressUpdate>`. -/
structure SignedAddressUpdate (S : Type) where
  inner : AddressUpdate
  sig : S
  deriving Repr, DecidableEq

/-- The table `peer_addresses`. -/
abbrev PeerAddresses (S : Type) := SortedTable PeerPubkey (SignedAddressUpdate S)

variable {S : Type} [AddressSigning S]

/-- `verify_signature`. -/
def SignedAddressUpdate.verifySignature (update : SignedAddressUpdate S)
    (pubkey : PeerPubkey) : Outcome InvalidSignatureError Unit := do
  Outcome.assertThat (AddressSigning.validKey S pubkey = true)
    "At this point pubkeys must be valid"
  Outcome.ensure (AddressSigning.verify pubkey update.sig update.inner = true)
    .invalidSignature

/-- The transaction of `handle_address_update`. -/
def PeerAddresses.write (db : PeerAddresses S) (update : SignedAddressUpdate S) :
    PeerAddresses S :=
  match db.get? update.inner.peerPubkey with
  | some existing =>
      if update.inner.timestamp ≤ existing.inner.timestamp then db
      else db.insert update.inner.peerPubkey update
  | none => db.insert update.inner.peerPubkey update

/-- `handle_address_update`: the table after it, and how it ends. -/
def handleAddressUpdate (db : PeerAddresses S) (update : SignedAddressUpdate S) :
    PeerAddresses S × Outcome String Unit :=
  match (update.verifySignature update.inner.peerPubkey).orRaise "Invalid signature" with
  | .ok _ => (db.write update, .ok ())
  | .error fault => (db, .error fault)

/-- One update after the other, from an empty table. -/
def handleAddressUpdates (updates : List (SignedAddressUpdate S)) : PeerAddresses S :=
  updates.foldl (fun db update => (handleAddressUpdate db update).1) .empty

end Bfte
