import Bfte.Node.Gossip
import Bfte.Proofs.AddressGossip

/-!
# Who is where

What a node stores about a correct peer is the address that peer is at, whoever it was told
by, and whatever else it was told. The peer itself always has the latest of the updates it
has signed, so nobody is ahead of it, and no node ever goes back to an earlier one.

Most of what a node does with its tables leaves the addresses alone; they change only when
an update is handled. `GossipStep` says so once for all ops.
-/

namespace Bfte

/-! ## One node -/

section Updates

variable {S : Type} [AddressSigning S] {db : PeerAddresses S}
  {update u : SignedAddressUpdate S} {k : PeerPubkey}

/-- What is stored after an update was there before, or is the update. -/
theorem get?_handleAddressUpdate (h : (handleAddressUpdate db update).1.get? k = some u) :
    db.get? k = some u ∨ (u = update ∧ update.inner.peerPubkey = k ∧ update.Valid) := by
  rcases handleAddressUpdate_cases db update with ⟨hvalid, hstep⟩ | ⟨_, hstep, _⟩
  · rw [hstep] at h
    have hput : ∀ t : PeerAddresses S,
        t = db ∨ t = db.insert update.inner.peerPubkey update → t.get? k = some u →
        db.get? k = some u ∨ (u = update ∧ update.inner.peerPubkey = k ∧ update.Valid) := by
      rintro t (rfl | rfl) ht
      · exact Or.inl ht
      · rcases SortedTable.get?_insert_eq_some ht with ⟨rfl, rfl⟩ | hold
        · exact Or.inr ⟨rfl, rfl, hvalid⟩
        · exact Or.inl hold
    refine hput (db.write update) ?_ h
    unfold PeerAddresses.write
    split
    · split
      · exact Or.inl rfl
      · exact Or.inr rfl
    · exact Or.inr rfl
  · rw [hstep] at h
    exact Or.inl h

/-- After an update that is signed as it should be, one at least as late is stored. -/
theorem timestamp_le_of_valid (db : PeerAddresses S) (h : update.Valid) :
    ∃ e, (handleAddressUpdate db update).1.get? update.inner.peerPubkey = some e ∧
      update.inner.timestamp ≤ e.inner.timestamp := by
  rcases handleAddressUpdate_cases db update with ⟨_, hstep⟩ | ⟨hnot, _⟩
  · rw [hstep]
    show ∃ e, (db.write update).get? _ = some e ∧ _
    unfold PeerAddresses.write
    split
    · next existing hget =>
        split
        · next hle => exact ⟨existing, hget, hle⟩
        · exact ⟨update, SortedTable.get?_insert_self _ _ _, le_refl _⟩
    · exact ⟨update, SortedTable.get?_insert_self _ _ _, le_refl _⟩
  · exact absurd h hnot

end Updates

namespace AddressDb

variable {S : Type} {nodeId : IrohAddress → Bool} {own : Option PeerPubkey}
  {db db' db'' : AddressDb S} {k : PeerPubkey} {d₁ d₂ : Draw} {up : Bool}

/-- The addresses are the same, and the own one is not needed. -/
structure Quiet (own : Option PeerPubkey) (db db' : AddressDb S) : Prop where
  addresses : db'.peerAddresses = db.peerAddresses
  needs : ∀ k, own = some k → db.weNeed.get? k = none → db'.weNeed.get? k = none

theorem Quiet.refl (own : Option PeerPubkey) (db : AddressDb S) : Quiet own db db :=
  ⟨rfl, fun _ _ h => h⟩

theorem Quiet.trans (h : Quiet own db db') (h' : Quiet own db' db'') : Quiet own db db'' :=
  ⟨h'.addresses.trans h.addresses, fun k hk hnone => h'.needs k hk (h.needs k hk hnone)⟩

theorem getPeerAddr_quiet (own : Option PeerPubkey) (db : AddressDb S) (k : PeerPubkey) :
    Quiet own db (db.getPeerAddr k).2 := by
  unfold getPeerAddr
  split
  · exact .refl own db
  · exact ⟨rfl, fun _ _ h => h⟩

theorem getPeerAddr_fst (db : AddressDb S) (k : PeerPubkey) :
    (db.getPeerAddr k).1 = db.peerAddresses.get? k := by
  unfold getPeerAddr
  split
  · next h => exact h.symm
  · next h => exact h.symm

theorem getPeerIrohAddr_quiet : Quiet own db (db.getPeerIrohAddr nodeId k).2 := by
  have hget := getPeerAddr_quiet own db k
  unfold getPeerIrohAddr
  split
  · next heq => rw [heq] at hget; exact hget
  · next heq =>
      rw [heq] at hget
      split
      split
      · exact hget
      · exact hget

theorem markPeerAddrAsNeeded_quiet : Quiet own db (db.markPeerAddrAsNeeded own k) := by
  unfold markPeerAddrAsNeeded
  split
  · exact .refl own db
  · next hne =>
      refine ⟨rfl, fun k' hk' hnone => ?_⟩
      have hk : k' ≠ k := by
        rintro rfl
        exact hne hk'
      show (db.weNeed.insert k ()).get? k' = none
      rw [SortedTable.get?_insert_of_ne hk]
      exact hnone

theorem connect_quiet : Quiet own db (db.connect nodeId own k up).2 := by
  have hget : Quiet own db (db.getPeerIrohAddr nodeId k).2 := getPeerIrohAddr_quiet
  unfold connect
  split
  · next heq => rw [heq] at hget; exact hget
  · next heq =>
      rw [heq] at hget
      split
      · exact hget
      · exact hget.trans markPeerAddrAsNeeded_quiet

/-- A connection that comes about is to the address that is stored. -/
theorem connect_of_get? {u : SignedAddressUpdate S} {a : IrohAddress}
    (hget : db.peerAddresses.get? k = some u) (haddr : u.inner.addr = .iroh a)
    (hnode : nodeId a = true) : db.connect nodeId own k true = (some a, db) := by
  unfold connect getPeerIrohAddr getPeerAddr
  simp [hget, haddr, hnode]

theorem pickPullNeedGossipPair_quiet :
    Quiet own db (db.pickPullNeedGossipPair d₁ d₂).2 := by
  unfold pickPullNeedGossipPair
  split
  · exact .refl own db
  · next toRefresh _ _ =>
      have hremoved : Quiet own db { db with weNeed := db.weNeed.remove toRefresh } := by
        refine ⟨rfl, fun k _ hnone => ?_⟩
        show (db.weNeed.remove toRefresh).get? k = none
        rw [SortedTable.get?_remove, hnone, ite_self]
      dsimp only
      split
      · exact hremoved
      · exact hremoved

theorem pushGossip_quiet : Quiet own db (db.pushGossip nodeId own d₁ d₂ up).2 := by
  unfold pushGossip
  split
  · exact .refl own db
  · split
    · exact .refl own db
    · exact connect_quiet

/-- What is pushed is stored. -/
theorem pushGossip_stored {a : IrohAddress} {u : SignedAddressUpdate S}
    (h : (db.pushGossip nodeId own d₁ d₂ up).1 = some (a, u)) :
    ∃ k, db.peerAddresses.get? k = some u := by
  unfold pushGossip at h
  split at h
  · cases h
  · next k update hpick =>
      split at h
      · cases h
      · obtain ⟨_, _, heq⟩ := Option.map_eq_some_iff.mp h
        obtain ⟨rfl, rfl⟩ := Prod.mk.inj heq
        unfold pickPushGossipPair at hpick
        simp only [Option.bind_eq_bind, Option.bind_eq_some_iff] at hpick
        obtain ⟨_, _, e, he, heq⟩ := hpick
        cases heq
        exact ⟨e.1, get?_of_getRandom he⟩

theorem pullGossip_quiet : Quiet own db (db.pullGossip nodeId own d₁ d₂ up).2 := by
  have hpick : Quiet own db (db.pickPullNeedGossipPair d₁ d₂).2 :=
    pickPullNeedGossipPair_quiet
  unfold pullGossip
  split
  · next heq => rw [heq] at hpick; exact hpick
  · next heq =>
      rw [heq] at hpick
      split
      · exact hpick
      · exact hpick.trans connect_quiet

end AddressDb

/-! ## All correct nodes -/

namespace GossipWorld

variable {ι S : Type} [AddressSigner S] {P : Places ι S} {w w' : GossipWorld ι S}
  {op : GossipOp ι S}

/-- If it names a correct peer, the update is one that peer has signed. -/
def Owned (P : Places ι S) (w : GossipWorld ι S) (u : SignedAddressUpdate S) : Prop :=
  ∀ i, P.key i = some u.inner.peerPubkey → u ∈ w.issued

/-- Nobody else can sign for a correct peer. -/
def Genuine (P : Places ι S) (w : GossipWorld ι S) : GossipOp ι S → Prop
  | .pushed _ update => update.Valid → Owned P w update
  | .answered _ _ update => update.Valid → Owned P w update
  | _ => True

/-- The update is on its way, or comes from somebody else. -/
def Arrives (P : Places ι S) (w : GossipWorld ι S) (u : SignedAddressUpdate S) : Prop :=
  (∃ j, (j, u) ∈ w.pushes) ∨ (∃ i k, (i, k, u) ∈ w.answers) ∨ (u.Valid → Owned P w u)

/-- What is on its way has been before, or is stored somewhere. -/
structure Sent (w : GossipWorld ι S) (pushes : List (ι × SignedAddressUpdate S))
    (answers : List (ι × PeerPubkey × SignedAddressUpdate S)) : Prop where
  pushes : ∀ e ∈ pushes, e ∈ w.pushes ∨ ∃ i k, (w.dbs i).peerAddresses.get? k = some e.2
  answers : ∀ e ∈ answers,
    e ∈ w.answers ∨ ∃ i k, (w.dbs i).peerAddresses.get? k = some e.2.2

variable [DecidableEq ι]

/-- All that an op can do. -/
inductive GossipStep (P : Places ι S) (w : GossipWorld ι S) : GossipWorld ι S → Prop
  | same : GossipStep P w w
  | quiet (i : ι) (db : AddressDb S) (pushes : List (ι × SignedAddressUpdate S))
      (queries : List (ι × ι × PeerPubkey))
      (answers : List (ι × PeerPubkey × SignedAddressUpdate S))
      (hdb : AddressDb.Quiet (P.key i) (w.dbs i) db) (hsent : Sent w pushes answers) :
      GossipStep P w
        ⟨Function.update w.dbs i db, pushes, queries, answers, w.issued⟩
  | took (i : ι) (u : SignedAddressUpdate S) (pushes : List (ι × SignedAddressUpdate S))
      (queries : List (ι × ι × PeerPubkey))
      (answers : List (ι × PeerPubkey × SignedAddressUpdate S))
      (hu : Arrives P w u) (hsent : Sent w pushes answers) :
      GossipStep P w ⟨Function.update w.dbs i ((w.dbs i).handleAddressUpdate u).2, pushes,
        queries, answers, w.issued⟩
  | started (i : ι) (k : PeerPubkey) (u : SignedAddressUpdate S)
      (hkey : P.key i = some k) (hpeer : u.inner.peerPubkey = k)
      (haddr : u.inner.addr = .iroh (P.addr i))
      (hsig : u.sig = AddressSigner.sign k u.inner) :
      GossipStep P w ⟨Function.update w.dbs i ((w.dbs i).handleAddressUpdate u).2, w.pushes,
        w.queries, w.answers, w.issued ++ [u]⟩

omit [AddressSigner S] [DecidableEq ι] in
theorem sent_self (w : GossipWorld ι S) : Sent w w.pushes w.answers :=
  ⟨fun _ he => Or.inl he, fun _ he => Or.inl he⟩

theorem gossipStep_takeAnswer {i : ι} {k : PeerPubkey} {u : SignedAddressUpdate S}
    {answers : List (ι × PeerPubkey × SignedAddressUpdate S)} (hu : Arrives P w u)
    (hsent : Sent w w.pushes answers) :
    GossipStep P w { w.setDb i ((w.dbs i).takeAnswer k u) with answers := answers } := by
  unfold AddressDb.takeAnswer
  split
  · exact .took i u w.pushes w.queries answers hu hsent
  · exact .quiet i _ w.pushes w.queries answers (.refl _ _) hsent

theorem step_cases (h : Genuine P w op) : GossipStep P w (w.step P op) := by
  cases op with
  | start i now =>
      cases hkey : P.key i with
      | none =>
          have hsame : w.step P (.start i now) = w := by
            simp [step, getOwnAddressUpdate, hkey]
          rw [hsame]
          exact .same
      | some k =>
          simp only [step, getOwnAddressUpdate, hkey, Option.map_some]
          exact .started i k _ hkey rfl rfl rfl
  | pushGossip i d₁ d₂ up =>
      refine .quiet i _ _ w.queries w.answers AddressDb.pushGossip_quiet
        ⟨?_, fun _ he => Or.inl he⟩
      intro e he
      rcases List.mem_append.mp he with hold | hnew
      · exact Or.inl hold
      · simp only [Option.mem_toList, Option.bind_eq_some_iff, Option.map_eq_some_iff] at hnew
        obtain ⟨⟨a, u⟩, hpush, j, _, rfl⟩ := hnew
        exact Or.inr ⟨i, AddressDb.pushGossip_stored hpush⟩
  | pullGossip i d₁ d₂ up =>
      exact .quiet i _ w.pushes _ w.answers AddressDb.pullGossip_quiet (sent_self w)
  | connect i k up =>
      exact .quiet i _ w.pushes w.queries w.answers AddressDb.connect_quiet (sent_self w)
  | handlePush n =>
      unfold step
      dsimp only
      split
      · exact .same
      · next j u hget =>
          refine .took j u _ w.queries w.answers
            (Or.inl ⟨j, List.mem_of_getElem? hget⟩) ⟨?_, fun _ he => Or.inl he⟩
          exact fun e he => Or.inl (List.mem_of_mem_eraseIdx he)
  | handleQuery n =>
      unfold step
      dsimp only
      split
      · exact .same
      · next i j k hget =>
          refine .quiet j _ w.pushes _ _ (AddressDb.getPeerAddr_quiet _ _ k)
            ⟨fun _ he => Or.inl he, fun e he => ?_⟩
          rcases List.mem_append.mp he with hold | hnew
          · exact Or.inl hold
          · simp only [Option.mem_toList, Option.map_eq_some_iff] at hnew
            obtain ⟨u, hu, rfl⟩ := hnew
            rw [AddressDb.getPeerAddr_fst] at hu
            exact Or.inr ⟨j, k, hu⟩
  | takeAnswer n =>
      unfold step
      dsimp only
      split
      · exact .same
      · next i k u hget =>
          refine gossipStep_takeAnswer (Or.inr (Or.inl ⟨i, k, List.mem_of_getElem? hget⟩))
            ⟨fun _ he => Or.inl he, ?_⟩
          exact fun e he => Or.inl (List.mem_of_mem_eraseIdx he)
  | pushed j u => exact .took j u w.pushes w.queries w.answers (Or.inr (Or.inr h)) (sent_self w)
  | answered i k u => exact gossipStep_takeAnswer (Or.inr (Or.inr h)) (sent_self w)

/-! ## Runs -/

/-- Nobody goes back to an earlier update. -/
def Later (w w' : GossipWorld ι S) : Prop :=
  ∀ i k e, (w.dbs i).peerAddresses.get? k = some e →
    ∃ e', (w'.dbs i).peerAddresses.get? k = some e' ∧
      e.inner.timestamp ≤ e'.inner.timestamp

omit [AddressSigner S] [DecidableEq ι] in
theorem Later.refl (w : GossipWorld ι S) : Later w w := fun _ _ e h => ⟨e, h, le_refl _⟩

omit [AddressSigner S] [DecidableEq ι] in
theorem Later.trans {w'' : GossipWorld ι S} (h : Later w w') (h' : Later w' w'') :
    Later w w'' := by
  intro i k e he
  obtain ⟨e', he', hle⟩ := h i k e he
  obtain ⟨e'', he'', hle'⟩ := h' i k e' he'
  exact ⟨e'', he'', hle.trans hle'⟩

omit [AddressSigner S] in
/-- The tables of one node change. -/
theorem later_update {i : ι} {db : AddressDb S}
    (hdb : ∀ k e, (w.dbs i).peerAddresses.get? k = some e →
      ∃ e', db.peerAddresses.get? k = some e' ∧ e.inner.timestamp ≤ e'.inner.timestamp)
    (hdbs : w'.dbs = Function.update w.dbs i db) : Later w w' := by
  intro j k e he
  rw [hdbs, Function.update_apply]
  split
  · next heq =>
      rw [heq] at he
      exact hdb k e he
  · exact ⟨e, he, le_refl _⟩

theorem GossipStep.later (h : GossipStep P w w') : Later w w' := by
  cases h with
  | same => exact .refl w
  | quiet i db pushes queries answers hdb hsent =>
      refine later_update (fun k e he => ⟨e, ?_, le_refl _⟩) rfl
      rw [hdb.addresses]
      exact he
  | took i u => exact later_update (fun k e he => timestamp_le_handleAddressUpdate u he) rfl
  | started i k u =>
      exact later_update (fun k e he => timestamp_le_handleAddressUpdate u he) rfl

/-- Whatever names a correct peer says where it is, and the peer itself has the latest. -/
structure GossipInv (P : Places ι S) (w : GossipWorld ι S) : Prop where
  issued : ∀ u ∈ w.issued, ∃ i, P.key i = some u.inner.peerPubkey ∧
    u.inner.addr = .iroh (P.addr i) ∧
    ∃ own, (w.dbs i).peerAddresses.get? u.inner.peerPubkey = some own ∧
      u.inner.timestamp ≤ own.inner.timestamp
  known : ∀ i k u, (w.dbs i).peerAddresses.get? k = some u →
    u.inner.peerPubkey = k ∧ u.Valid ∧ Owned P w u
  pushes : ∀ e ∈ w.pushes, e.2.Valid → Owned P w e.2
  answers : ∀ e ∈ w.answers, e.2.2.Valid → Owned P w e.2.2
  needs : ∀ i k, P.key i = some k → (w.dbs i).weNeed.get? k = none

omit [DecidableEq ι] in
theorem gossipInv_empty (P : Places ι S) : GossipInv P (empty : GossipWorld ι S) where
  issued u hu := by cases hu
  known i k u hu := by cases hu
  pushes e he := by cases he
  answers e he := by cases he
  needs i k _ := rfl

omit [DecidableEq ι] in
theorem GossipInv.arrives (h : GossipInv P w) {u : SignedAddressUpdate S}
    (hu : Arrives P w u) (hvalid : u.Valid) : Owned P w u := by
  rcases hu with ⟨j, hj⟩ | ⟨i, k, hik⟩ | howned
  · exact h.pushes (j, u) hj hvalid
  · exact h.answers (i, k, u) hik hvalid
  · exact howned hvalid

omit [DecidableEq ι] in
theorem GossipInv.sent (h : GossipInv P w) {pushes : List (ι × SignedAddressUpdate S)}
    {answers : List (ι × PeerPubkey × SignedAddressUpdate S)} (hsent : Sent w pushes answers) :
    (∀ e ∈ pushes, e.2.Valid → Owned P w e.2) ∧
      ∀ e ∈ answers, e.2.2.Valid → Owned P w e.2.2 := by
  constructor
  · intro e he hvalid
    rcases hsent.pushes e he with hold | ⟨i, k, hget⟩
    · exact h.pushes e hold hvalid
    · exact (h.known i k e.2 hget).2.2
  · intro e he hvalid
    rcases hsent.answers e he with hold | ⟨i, k, hget⟩
    · exact h.answers e hold hvalid
    · exact (h.known i k e.2.2 hget).2.2

/-- Of the databases, one is another now. -/
theorem GossipInv.known_update (h : GossipInv P w) {i : ι} {db : AddressDb S}
    {Holds : PeerPubkey → SignedAddressUpdate S → Prop}
    (hdb : ∀ k u, db.peerAddresses.get? k = some u → Holds k u)
    (hkeep : ∀ k u, u.inner.peerPubkey = k → u.Valid → Owned P w u → Holds k u) :
    ∀ j k u, (Function.update w.dbs i db j).peerAddresses.get? k = some u → Holds k u := by
  refine (Function.forall_update_iff w.dbs fun _ db =>
    ∀ k u, db.peerAddresses.get? k = some u → Holds k u).mpr ⟨hdb, fun j _ k u hu => ?_⟩
  obtain ⟨hpeer, hvalid, howned⟩ := h.known j k u hu
  exact hkeep k u hpeer hvalid howned

theorem GossipInv.needs_update (h : GossipInv P w) {i : ι} {db : AddressDb S}
    (hdb : ∀ k, P.key i = some k → db.weNeed.get? k = none) :
    ∀ j k, P.key j = some k → (Function.update w.dbs i db j).weNeed.get? k = none :=
  (Function.forall_update_iff w.dbs fun j db =>
    ∀ k, P.key j = some k → db.weNeed.get? k = none).mpr ⟨hdb, fun j _ => h.needs j⟩

theorem GossipStep.inv [LawfulAddressSigner S] (h : GossipStep P w w') (hw : GossipInv P w) :
    GossipInv P w' := by
  have hlater := h.later
  have hissued : ∀ u ∈ w.issued, ∃ i, P.key i = some u.inner.peerPubkey ∧
      u.inner.addr = .iroh (P.addr i) ∧
      ∃ own, (w'.dbs i).peerAddresses.get? u.inner.peerPubkey = some own ∧
        u.inner.timestamp ≤ own.inner.timestamp := by
    intro u hu
    obtain ⟨i, hkey, haddr, own, hown, hle⟩ := hw.issued u hu
    obtain ⟨own', hown', hle'⟩ := hlater i _ own hown
    exact ⟨i, hkey, haddr, own', hown', hle.trans hle'⟩
  cases h with
  | same => exact hw
  | quiet i db pushes queries answers hdb hsent =>
      obtain ⟨hpushes, hanswers⟩ := hw.sent hsent
      refine ⟨hissued, ?_, hpushes, hanswers, ?_⟩
      · refine hw.known_update (fun k u hu => ?_) fun k u hpeer hvalid howned =>
          ⟨hpeer, hvalid, howned⟩
        rw [hdb.addresses] at hu
        exact hw.known i k u hu
      · exact hw.needs_update fun k hk => hdb.needs k hk (hw.needs i k hk)
  | took i u pushes queries answers hu hsent =>
      obtain ⟨hpushes, hanswers⟩ := hw.sent hsent
      refine ⟨hissued, ?_, hpushes, hanswers, hw.needs_update fun k hk => hw.needs i k hk⟩
      refine hw.known_update (fun k v hv => ?_) fun k v hpeer hvalid howned =>
        ⟨hpeer, hvalid, howned⟩
      rcases get?_handleAddressUpdate hv with hold | ⟨rfl, hpeer, hvalid⟩
      · exact hw.known i k v hold
      · exact ⟨hpeer, hvalid, hw.arrives hu hvalid⟩
  | started i k u hkey hpeer haddr hsig =>
      have hmono : ∀ v : SignedAddressUpdate S, Owned P w v →
          ∀ j, P.key j = some v.inner.peerPubkey → v ∈ w.issued ++ [u] :=
        fun v hv j hj => List.mem_append_left _ (hv j hj)
      have hvalid : u.Valid := by
        refine ⟨?_, ?_⟩
        · rw [hpeer]
          exact P.key_valid i k hkey
        · rw [hpeer, hsig]
          exact LawfulAddressSigner.verify_sign k u.inner
      refine ⟨fun v hv => ?_, ?_, fun e he hv => hmono _ (hw.pushes e he hv),
        fun e he hv => hmono _ (hw.answers e he hv),
        hw.needs_update fun k' hk' => hw.needs i k' hk'⟩
      · rcases List.mem_append.mp hv with hold | hnew
        · exact hissued v hold
        · obtain rfl := List.mem_singleton.mp hnew
          obtain ⟨own, hown, hle⟩ := timestamp_le_of_valid (w.dbs i).peerAddresses hvalid
          refine ⟨i, by rw [hpeer]; exact hkey, haddr, own, ?_, hle⟩
          dsimp only
          rw [Function.update_self]
          exact hown
      · refine hw.known_update (fun k' v hv => ?_) fun k' v hp hval howned =>
          ⟨hp, hval, hmono v howned⟩
        rcases get?_handleAddressUpdate hv with hold | ⟨rfl, hpeer', _⟩
        · obtain ⟨hp, hval, howned⟩ := hw.known i k' v hold
          exact ⟨hp, hval, hmono v howned⟩
        · exact ⟨hpeer', hvalid, fun _ _ => List.mem_append_right _ (List.mem_singleton_self _)⟩

variable [LawfulAddressSigner S] {ops : List (GossipOp ι S)}

theorem run_inv (hgenuine : Trail.Guarded (step P) (Genuine P) w ops)
    (hw : GossipInv P w) : GossipInv P (w.run P ops) :=
  hgenuine.invariant (I := GossipInv P) (fun _ _ h hop => (step_cases hop).inv h) hw

omit [LawfulAddressSigner S] in
theorem run_later (hgenuine : Trail.Guarded (step P) (Genuine P) w ops) :
    Later w (w.run P ops) :=
  hgenuine.invariant (I := fun w' => Later w w')
    (fun _ _ h hop => h.trans (step_cases hop).later) (.refl w)

omit [DecidableEq ι] [LawfulAddressSigner S] in
/-- What is stored about a correct peer says where it is. -/
theorem GossipInv.addr (h : GossipInv P w) {i j : ι} {k : PeerPubkey}
    {u : SignedAddressUpdate S} (hkey : P.key j = some k)
    (hget : (w.dbs i).peerAddresses.get? k = some u) :
    u ∈ w.issued ∧ u.inner.addr = .iroh (P.addr j) ∧
      ∃ own, (w.dbs j).peerAddresses.get? k = some own ∧
        u.inner.timestamp ≤ own.inner.timestamp := by
  obtain ⟨hpeer, _, howned⟩ := h.known i k u hget
  have hissued := howned j (by rw [hpeer]; exact hkey)
  obtain ⟨j', hkey', haddr, hown⟩ := h.issued u hissued
  rw [hpeer] at hkey' hown
  obtain rfl := P.key_inj j j' k hkey hkey'
  exact ⟨hissued, haddr, hown⟩

/-- In every run, whatever is sent to whom as long as nobody signs for a correct peer: what
a node stores about a correct peer is an update of that peer with the address it is at, so
a connection to the peer is to the peer, the peer itself has no earlier one, and what the
node has stored earlier on was no later. -/
theorem addresses_genuine {before after : List (GossipOp ι S)}
    (hgenuine : Trail.Guarded (step P) (Genuine P) empty (before ++ after)) {i j : ι}
    {k : PeerPubkey} {u : SignedAddressUpdate S} (hkey : P.key j = some k)
    (hu : ((empty.run P (before ++ after)).dbs i).peerAddresses.get? k = some u) :
    u ∈ (empty.run P (before ++ after)).issued ∧ u.inner.addr = .iroh (P.addr j) ∧
      ((empty.run P (before ++ after)).dbs i).connect P.nodeId (P.key i) k true =
        (some (P.addr j), (empty.run P (before ++ after)).dbs i) ∧
      (∃ own, ((empty.run P (before ++ after)).dbs j).peerAddresses.get? k = some own ∧
        u.inner.timestamp ≤ own.inner.timestamp) ∧
      ∀ old, ((empty.run P before).dbs i).peerAddresses.get? k = some old →
        old.inner.timestamp ≤ u.inner.timestamp := by
  have hinv := run_inv hgenuine (gossipInv_empty P)
  obtain ⟨hissued, haddr, hown⟩ := hinv.addr hkey hu
  refine ⟨hissued, haddr, AddressDb.connect_of_get? hu haddr (P.nodeId_addr j),
    hown, fun old hold => ?_⟩
  have hlater := run_later (Trail.guarded_append.mp hgenuine).2
  obtain ⟨e, he, hle⟩ := hlater i k old hold
  unfold run at he hu
  rw [Trail.run_append] at hu
  rw [hu] at he
  cases he
  exact hle

/-! ## Two peers and a guest -/

section Trio

instance : AddressSigner PlainAddressSig where
  toAddressSigning := inferInstance
  sign k update := (k, update)

instance : LawfulAddressSigner PlainAddressSig where
  verify_sign _ _ := decide_eq_true rfl

instance {n : ℕ} (P : Places (Fin n) PlainAddressSig)
    (w : GossipWorld (Fin n) PlainAddressSig) (u : SignedAddressUpdate PlainAddressSig) :
    Decidable (Owned P w u) :=
  inferInstanceAs (Decidable (∀ i, P.key i = some u.inner.peerPubkey → u ∈ w.issued))

instance {n : ℕ} (P : Places (Fin n) PlainAddressSig)
    (w : GossipWorld (Fin n) PlainAddressSig) (op : GossipOp (Fin n) PlainAddressSig) :
    Decidable (Genuine P w op) :=
  match op with
  | .pushed _ update => inferInstanceAs (Decidable (update.Valid → Owned P w update))
  | .answered _ _ update => inferInstanceAs (Decidable (update.Valid → Owned P w update))
  | .start _ _ => .isTrue trivial
  | .pushGossip _ _ _ _ => .isTrue trivial
  | .pullGossip _ _ _ _ => .isTrue trivial
  | .connect _ _ _ => .isTrue trivial
  | .handlePush _ => .isTrue trivial
  | .handleQuery _ => .isTrue trivial
  | .takeAnswer _ => .isTrue trivial

abbrev ten : Fin 3 := 0

abbrev eleven : Fin 3 := 1

abbrev guest : Fin 3 := 2

def trioKey (i : Fin 3) : Option PeerPubkey :=
  if i = ten then some 10 else if i = eleven then some 11 else none

theorem trioKey_inj : ∀ i j, trioKey i = trioKey j → trioKey i ≠ none → i = j := by decide

/-- Two peers, with keys 10 and 11, and a node without a key. -/
def trio : Places (Fin 3) PlainAddressSig where
  key := trioKey
  addr i := if i = ten then 20 else if i = eleven then 21 else 22
  holder a := if a = 20 then some ten else if a = 21 then some eleven else
    if a = 22 then some guest else none
  nodeId _ := true
  holder_addr := by decide
  nodeId_addr _ := rfl
  key_valid i k hk := by
    unfold trioKey at hk
    split at hk
    · cases hk
      decide
    · split at hk
      · cases hk
        decide
      · cases hk
  key_inj i j k hi hj := trioKey_inj i j (hi.trans hj.symm) (by rw [hi]; exact nofun)

/-- The guest is pushed an update of peer 11, and one of a peer that claims to be where
peer 10 is. Then peer 11 starts again. -/
def guestPushes : List (GossipOp (Fin 3) PlainAddressSig) :=
  [.start ten 5, .start eleven 7, .pushed guest (plainUpdate 7 11 21),
    .pushed guest (plainUpdate 8 66 20), .start eleven 9, .pushed ten (plainUpdate 9 11 21)]

/-- The guest is pushed the later update, and then the earlier one once more. -/
def guestReplays : List (GossipOp (Fin 3) PlainAddressSig) :=
  [.pushed guest (plainUpdate 9 11 21), .pushed guest (plainUpdate 7 11 21),
    .pushGossip ten ⟨11, true⟩ ⟨10, true⟩ true, .handlePush 0, .connect guest 11 false]

theorem addresses_genuine_guest :
    ((empty.run trio (guestPushes ++ guestReplays)).dbs guest).connect trio.nodeId none 11
        true = (some 21, (empty.run trio (guestPushes ++ guestReplays)).dbs guest) ∧
      ∀ old, ((empty.run trio guestPushes).dbs guest).peerAddresses.get? 11 = some old →
        old.inner.timestamp ≤ 9 := by
  have hgenuine : Trail.Guarded (step trio) (Genuine trio) empty
      (guestPushes ++ guestReplays) := by decide +kernel
  have hget : ((empty.run trio (guestPushes ++ guestReplays)).dbs guest).peerAddresses.get?
      11 = some (plainUpdate 9 11 21) := by decide +kernel
  obtain ⟨_, _, hconnect, _, hold⟩ := addresses_genuine (j := eleven) hgenuine rfl hget
  exact ⟨hconnect, hold⟩

end Trio

end GossipWorld

end Bfte
