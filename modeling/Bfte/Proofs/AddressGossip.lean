import Bfte.Lib.Latest
import Bfte.Node.PeerAddress

/-!
# What nodes know of each other's addresses

Of updates that are signed as they should be, a node keeps the first one with the
greatest timestamp. Nodes that received the same updates know the same addresses, with
one exception: a peer may sign two updates with the same timestamp, and then the one
that came first stays.

The key an update is checked against comes with it, and the check panics on one that is
not a key. Anyone can send such an update.
-/

namespace Bfte

variable {S : Type} [AddressSigning S]

namespace SignedAddressUpdate

/-- It names the peer that signed it. -/
def Valid (update : SignedAddressUpdate S) : Prop :=
  AddressSigning.validKey S update.inner.peerPubkey = true ∧
    AddressSigning.verify update.inner.peerPubkey update.sig update.inner = true

instance (update : SignedAddressUpdate S) : Decidable update.Valid :=
  inferInstanceAs (Decidable (_ ∧ _))

theorem verifySignature_eq_ok {update : SignedAddressUpdate S} {u : Unit} :
    update.verifySignature update.inner.peerPubkey = .ok u ↔ update.Valid := by
  simp [verifySignature, Valid]

theorem verifySignature_panicked {update : SignedAddressUpdate S} :
    (update.verifySignature update.inner.peerPubkey).Panicked ↔
      ¬ AddressSigning.validKey S update.inner.peerPubkey = true := by
  simp [verifySignature, Outcome.bind_panicked]

end SignedAddressUpdate

/-! ## An ideal signature scheme

A signature names its key and its message. The number 2 is not the height of a point of
the curve, so the key with the bytes of that number is none. -/

/-- Two, the lowest byte first. -/
def offCurveKey : PeerPubkey :=
  0x0200000000000000000000000000000000000000000000000000000000000000

abbrev PlainAddressSig := PeerPubkey × AddressUpdate

instance : AddressSigning PlainAddressSig where
  verify k sig update := decide (sig = (k, update))
  validKey k := decide (k ≠ offCurveKey)

def plainUpdate (timestamp : Timestamp) (k : PeerPubkey) (addr : IrohAddress) :
    SignedAddressUpdate PlainAddressSig :=
  ⟨⟨timestamp, k, .iroh addr⟩, (k, ⟨timestamp, k, .iroh addr⟩)⟩

/-! ## One update -/

/-- What handling an update can do. -/
theorem handleAddressUpdate_cases (db : PeerAddresses S) (update : SignedAddressUpdate S) :
    (update.Valid ∧ handleAddressUpdate db update = (db.write update, .ok ())) ∨
    (¬ update.Valid ∧ (handleAddressUpdate db update).1 = db ∧
      ∃ fault, (handleAddressUpdate db update).2 = .error fault) := by
  unfold handleAddressUpdate
  cases h : (update.verifySignature update.inner.peerPubkey).orRaise "Invalid signature" with
  | ok u =>
      exact Or.inl ⟨SignedAddressUpdate.verifySignature_eq_ok.mp
        (Outcome.orRaise_eq_ok.mp h), rfl⟩
  | error fault =>
      refine Or.inr ⟨fun hvalid => ?_, rfl, fault, rfl⟩
      rw [Outcome.orRaise_eq_ok.mpr
        (SignedAddressUpdate.verifySignature_eq_ok (u := ()).mpr hvalid)] at h
      cases h

theorem handleAddressUpdate_panicked (db : PeerAddresses S)
    (update : SignedAddressUpdate S) :
    (handleAddressUpdate db update).2.Panicked ↔
      ¬ AddressSigning.validKey S update.inner.peerPubkey = true := by
  have hcheck := Outcome.panicked_orRaise
    (x := update.verifySignature update.inner.peerPubkey) (e := "Invalid signature")
  rw [← SignedAddressUpdate.verifySignature_panicked, ← hcheck]
  unfold handleAddressUpdate
  cases (update.verifySignature update.inner.peerPubkey).orRaise "Invalid signature" with
  | ok u => exact iff_of_false Outcome.not_panicked_ok Outcome.not_panicked_ok
  | error fault => exact Iff.rfl

/-- An update is taken, or refused with an error and without a change, just when the key
that comes with it is one. -/
theorem handleAddressUpdate_safe_iff (db : PeerAddresses S)
    (update : SignedAddressUpdate S) :
    ((handleAddressUpdate db update).2 = .ok () ∨
      ((handleAddressUpdate db update).2.Failed ∧
        (handleAddressUpdate db update).1 = db)) ↔
    AddressSigning.validKey S update.inner.peerPubkey = true := by
  have hpanic := handleAddressUpdate_panicked db update
  constructor
  · rintro (hok | ⟨⟨e, herr⟩, -⟩)
    · refine not_not.mp fun hkey => ?_
      have hp := hpanic.mpr hkey
      rw [hok] at hp
      exact Outcome.not_panicked_ok hp
    · refine not_not.mp fun hkey => ?_
      have hp := hpanic.mpr hkey
      rw [herr] at hp
      exact Outcome.not_panicked_raise hp
  · intro hkey
    rcases handleAddressUpdate_cases db update with ⟨-, h⟩ | ⟨-, hdb, fault, h⟩
    · exact Or.inl (congrArg Prod.snd h)
    · have hnot : ¬ (handleAddressUpdate db update).2.Panicked := fun hp => hpanic.mp hp hkey
      refine Or.inr ⟨Outcome.failed_of (fun a ha => ?_) hnot, hdb⟩
      rw [h] at ha
      cases ha

/-- An update that comes with a key that is none takes the handler down. -/
theorem handleAddressUpdate_offCurveKey :
    (handleAddressUpdate .empty (plainUpdate 1 offCurveKey 5)).2 =
      .error (.panic "At this point pubkeys must be valid") := by decide

/-! ## All updates a node receives -/

/-- No update takes a stored timestamp back. -/
theorem timestamp_le_handleAddressUpdate {db : PeerAddresses S} {k : PeerPubkey}
    {old : SignedAddressUpdate S} (update : SignedAddressUpdate S)
    (h : db.get? k = some old) :
    ∃ new, (handleAddressUpdate db update).1.get? k = some new ∧
      old.inner.timestamp ≤ new.inner.timestamp := by
  rcases handleAddressUpdate_cases db update with ⟨-, hstep⟩ | ⟨-, hdb, -⟩
  · rw [hstep]
    show ∃ new, (db.write update).get? k = some new ∧ _
    by_cases hk : k = update.inner.peerPubkey
    · subst hk
      rw [PeerAddresses.write, h]
      dsimp only
      split
      · exact ⟨old, h, le_rfl⟩
      · next hlt => exact ⟨update, SortedTable.get?_insert_self _ _ _, (not_le.mp hlt).le⟩
    · refine ⟨old, ?_, le_rfl⟩
      have hother : (db.insert update.inner.peerPubkey update).get? k = some old := by
        rw [SortedTable.get?_insert_of_ne hk]
        exact h
      unfold PeerAddresses.write
      split
      · split
        · exact h
        · exact hother
      · exact hother
  · rw [hdb]
    exact ⟨old, h, le_rfl⟩

theorem timestamp_le_foldl {db : PeerAddresses S} {old : SignedAddressUpdate S}
    {k : PeerPubkey} (updates : List (SignedAddressUpdate S)) (h : db.get? k = some old) :
    ∃ new, (updates.foldl (fun db u => (handleAddressUpdate db u).1) db).get? k =
        some new ∧ old.inner.timestamp ≤ new.inner.timestamp := by
  induction updates generalizing db old with
  | nil => exact ⟨old, h, le_rfl⟩
  | cons update updates ih =>
      obtain ⟨mid, hmid, hle⟩ := timestamp_le_handleAddressUpdate update h
      obtain ⟨new, hnew, hle'⟩ := ih hmid
      exact ⟨new, hnew, hle.trans hle'⟩

/-- Whose update it is, and how late. -/
def SignedAddressUpdate.peer (update : SignedAddressUpdate S) : PeerPubkey :=
  update.inner.peerPubkey

def SignedAddressUpdate.timestamp (update : SignedAddressUpdate S) : Timestamp :=
  update.inner.timestamp

omit [AddressSigning S] in
theorem PeerAddresses.write_eq_put (db : PeerAddresses S) (update : SignedAddressUpdate S) :
    db.write update =
      Latest.put SignedAddressUpdate.peer SignedAddressUpdate.timestamp db update := by
  have hpeer : update.peer = update.inner.peerPubkey := rfl
  rw [PeerAddresses.write, Latest.put, hpeer]
  cases db.get? update.inner.peerPubkey with
  | none => rfl
  | some existing => rfl

/-- Updates that are signed as they should be are kept by their timestamp alone. -/
theorem handleAddressUpdates_eq_putAll {updates : List (SignedAddressUpdate S)}
    (hvalid : ∀ u ∈ updates, u.Valid) :
    handleAddressUpdates updates =
      Latest.putAll SignedAddressUpdate.peer SignedAddressUpdate.timestamp updates := by
  refine List.foldl_ext _ _ _ fun db update hmem => ?_
  rcases handleAddressUpdate_cases db update with ⟨-, h⟩ | ⟨hnot, -⟩
  · rw [h]
    exact db.write_eq_put update
  · exact absurd (hvalid update hmem) hnot

/-- No peer signed two updates with its greatest timestamp. -/
def OneLatest (updates : List (SignedAddressUpdate S)) : Prop :=
  Latest.NoTie SignedAddressUpdate.peer SignedAddressUpdate.timestamp updates

/-- Nodes that received the same updates, in any order and any number of times, know the
same addresses, just when no peer signed two with its greatest timestamp. Timestamps never
go back, and what is stored in the end is one of the updates, with the greatest timestamp
there was. -/
theorem addresses_converge_iff (updates : List (SignedAddressUpdate S))
    (hvalid : ∀ u ∈ updates, u.Valid) :
    ((∀ updates', (∀ u, u ∈ updates' ↔ u ∈ updates) →
        handleAddressUpdates updates' = handleAddressUpdates updates) ↔
      OneLatest updates) ∧
    (∀ before after, updates = before ++ after → ∀ k old,
      (handleAddressUpdates before).get? k = some old →
        ∃ new, (handleAddressUpdates updates).get? k = some new ∧
          old.inner.timestamp ≤ new.inner.timestamp) ∧
    (∀ u ∈ updates, ∃ stored,
      (handleAddressUpdates updates).get? u.inner.peerPubkey = some stored ∧
        u.inner.timestamp ≤ stored.inner.timestamp) ∧
    (∀ k stored, (handleAddressUpdates updates).get? k = some stored →
      stored ∈ updates ∧ stored.inner.peerPubkey = k) := by
  have hput := handleAddressUpdates_eq_putAll hvalid
  refine ⟨?_, ?_, ?_, ?_⟩
  · refine Iff.trans ?_ (Latest.putAll_eq_iff_noTie updates)
    refine forall_congr' fun updates' => imp_congr_right fun hmem => ?_
    rw [hput, handleAddressUpdates_eq_putAll fun u hu => hvalid u ((hmem u).mp hu)]
  · rintro before after rfl k old hold
    obtain ⟨new, hnew, hle⟩ := timestamp_le_foldl after hold
    refine ⟨new, ?_, hle⟩
    rw [handleAddressUpdates, List.foldl_append]
    exact hnew
  · intro u hu
    obtain ⟨stored, hstored⟩ := Latest.exists_get? SignedAddressUpdate.peer
      SignedAddressUpdate.timestamp hu
    obtain ⟨hkey, hlatest⟩ := Latest.isLatest_of_get? hstored
    rw [hput]
    exact ⟨stored, hstored, hlatest.2 u hu hkey.symm⟩
  · intro k stored hstored
    rw [hput] at hstored
    obtain ⟨hkey, hlatest⟩ := Latest.isLatest_of_get? hstored
    exact ⟨hlatest.1, hkey⟩

theorem addresses_converge_in_order :
    handleAddressUpdates [plainUpdate 2 7 6, plainUpdate 1 7 5, plainUpdate 2 7 6] =
      handleAddressUpdates [plainUpdate 1 7 5, plainUpdate 2 7 6] := by
  have hvalid : ∀ u ∈ [plainUpdate 1 7 5, plainUpdate 2 7 6], u.Valid := by decide
  refine (addresses_converge_iff _ hvalid).1.mpr ?_ _ fun u => ?_
  · have hnewer : ∀ u, Latest.IsLatest SignedAddressUpdate.peer
        SignedAddressUpdate.timestamp [plainUpdate 1 7 5, plainUpdate 2 7 6] u →
          u = plainUpdate 2 7 6 := by
      rintro u ⟨hmem, hlate⟩
      rcases List.mem_pair.mp hmem with rfl | rfl
      · exact absurd (hlate (plainUpdate 2 7 6) (by decide) rfl) (by decide)
      · rfl
    exact fun u w hu hw _ => (hnewer u hu).trans (hnewer w hw).symm
  · rw [List.mem_cons, List.mem_pair]
    exact or_iff_right_of_imp Or.inr

/-- A peer signs two addresses for the same moment: whoever hears the one first keeps it,
whoever hears the other first keeps that one. -/
theorem addresses_tie :
    (plainUpdate 1 7 5).Valid ∧ (plainUpdate 1 7 6).Valid ∧
    handleAddressUpdates [plainUpdate 1 7 5, plainUpdate 1 7 6] ≠
      handleAddressUpdates [plainUpdate 1 7 6, plainUpdate 1 7 5] := by
  refine ⟨by decide, by decide, fun h => ?_⟩
  have hget := congrArg (fun db => db.get? 7) h
  exact absurd hget (by decide)

end Bfte
