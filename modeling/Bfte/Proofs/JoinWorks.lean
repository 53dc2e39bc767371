import Bfte.Proofs.Join
import Bfte.Proofs.Records
import Bfte.Proofs.Starting

/-!
# An invite works

What a node that runs the code has to answer for another one to join: the first params,
the pinned block as long as it is final and has not been replaced, the params of its
round, and the addresses it knows. All of it passes the checks of the joining node, so an
invite that a node has made out can be used with the node itself, then or later.
-/

namespace Bfte

open Session Rpc

variable {σ D S : Type} [LinearOrder D] [Hashing D] [AddressSigning S]

/-! ## Addresses -/

/-- Every address is signed by the peer it is stored for. -/
def PeerAddresses.Signed (db : PeerAddresses S) : Prop :=
  ∀ k u, db.get? k = some u → u.inner.peerPubkey = k ∧ u.Valid

theorem PeerAddresses.Signed.handle {db : PeerAddresses S} (h : db.Signed)
    (update : SignedAddressUpdate S) : (handleAddressUpdate db update).1.Signed := by
  rcases handleAddressUpdate_cases db update with ⟨hvalid, heq⟩ | ⟨-, heq, -⟩
  · rw [heq]
    intro k u hu
    rcases PeerAddresses.get?_write hu with hold | ⟨rfl, rfl⟩
    · exact h k u hold
    · exact ⟨rfl, hvalid⟩
  · rw [heq]
    exact h

/-- Whatever a node was sent, its addresses are signed. -/
theorem handleAddressUpdates_signed (updates : List (SignedAddressUpdate S)) :
    (handleAddressUpdates updates).Signed := by
  have hfold : ∀ (l : List (SignedAddressUpdate S)) (db : PeerAddresses S), db.Signed →
      (l.foldl (fun db u => (handleAddressUpdate db u).1) db).Signed := by
    intro l
    induction l with
    | nil => exact fun _ h => h
    | cons u l ih => exact fun db h => ih _ (h.handle u)
  exact hfold updates .empty fun k u hu => by cases hu

/-- The address of a peer is known, as late as the other one knows it or later. -/
def AddressDb.UpToDate (db other : AddressDb S) (k : PeerPubkey) : Prop :=
  ∀ u, other.peerAddresses.get? k = some u →
    ∃ v, db.peerAddresses.get? k = some v ∧ u.inner.timestamp ≤ v.inner.timestamp

omit [AddressSigning S] in
theorem AddressDb.UpToDate.trans {db db' db'' : AddressDb S} {k : PeerPubkey}
    (h : db.UpToDate db' k) (h' : db'.UpToDate db'' k) : db.UpToDate db'' k := by
  intro u hu
  obtain ⟨v, hv, hle⟩ := h' u hu
  obtain ⟨w, hw, hle'⟩ := h v hv
  exact ⟨w, hw, hle.trans hle'⟩

omit [AddressSigning S] in
theorem AddressDb.upToDate_refl (db : AddressDb S) (k : PeerPubkey) : db.UpToDate db k :=
  fun u hu => ⟨u, hu, le_rfl⟩

theorem AddressDb.handle_upToDate (db : AddressDb S) (update : SignedAddressUpdate S)
    (k : PeerPubkey) : (db.handleAddressUpdate update).2.UpToDate db k :=
  fun _ hu => timestamp_le_handleAddressUpdate update hu

/-- A valid update is stored, or something later is. -/
theorem AddressDb.handle_valid (db : AddressDb S) {update : SignedAddressUpdate S}
    (hvalid : update.Valid) : (db.handleAddressUpdate update).1 = .ok () ∧
      ∃ v, (db.handleAddressUpdate update).2.peerAddresses.get? update.inner.peerPubkey =
        some v ∧ update.inner.timestamp ≤ v.inner.timestamp := by
  rcases handleAddressUpdate_cases db.peerAddresses update with ⟨-, heq⟩ | ⟨hnot, -⟩
  · refine ⟨congrArg Prod.snd heq, ?_⟩
    have hdb : (Bfte.handleAddressUpdate db.peerAddresses update).1 =
        db.peerAddresses.write update := congrArg Prod.fst heq
    show ∃ v, (Bfte.handleAddressUpdate db.peerAddresses update).1.get? _ = some v ∧ _
    rw [hdb, PeerAddresses.write]
    split
    · next existing hold =>
        split
        · next hle => exact ⟨existing, hold, hle⟩
        · exact ⟨update, SortedTable.get?_insert_self _ _ _, le_rfl⟩
    · exact ⟨update, SortedTable.get?_insert_self _ _ _, le_rfl⟩
  · exact absurd hvalid hnot

namespace Node

variable [RawHashing D] [BaoStream D] {c : Consensus D S}

/-- The addresses of a node are handed on. -/
theorem fetchAddresses_served (peers : List PeerPubkey) {s : Call (AddressDb S) S}
    (hsigned : s.server.peerAddresses.Signed) :
    ∃ s', exec (fetchAddresses (handleRequest c) peers) s = (.ok (), s') ∧
      s'.server.peerAddresses = s.server.peerAddresses ∧
      (∀ k, s'.addresses.UpToDate s.addresses k) ∧
      ∀ k ∈ peers, s'.addresses.UpToDate s.server k := by
  induction peers generalizing s with
  | nil => exact ⟨s, rfl, rfl, AddressDb.upToDate_refl _, fun k hk => by cases hk⟩
  | cons k peers ih =>
      have hask : ∃ t, exec (getPeerAddress (handleRequest c) k) s =
          (.ok (s.server.peerAddresses.get? k), t) ∧
            t.server.peerAddresses = s.server.peerAddresses ∧
              t.addresses = s.addresses := by
        refine ⟨⟨(s.server.getPeerAddr k).2, s.addresses⟩,
          getPeerAddress_eq_ok.mpr ⟨?_, rfl, fun u hu => hsigned k u hu⟩, ?_, rfl⟩
        · show (some (Answer.peerAddress _), _) = _
          unfold AddressDb.getPeerAddr
          cases s.server.peerAddresses.get? k <;> rfl
        · unfold AddressDb.getPeerAddr
          cases s.server.peerAddresses.get? k <;> rfl
      obtain ⟨t, ht, hserver, haddr⟩ := hask
      have htake : ∃ t', exec (takeAddress (s.server.peerAddresses.get? k)) t =
          ((.ok () : Outcome String Unit), t') ∧
            t'.server = t.server ∧ (∀ k, t'.addresses.UpToDate t.addresses k) ∧
              t'.addresses.UpToDate s.server k := by
        cases hu : s.server.peerAddresses.get? k with
        | none =>
            refine ⟨t, rfl, rfl, AddressDb.upToDate_refl _, fun u hget => ?_⟩
            rw [hu] at hget
            cases hget
        | some u =>
            obtain ⟨rfl, hvalid⟩ := hsigned k u hu
            obtain ⟨hok, v, hv, hle⟩ := t.addresses.handle_valid hvalid
            refine ⟨⟨t.server, (t.addresses.handleAddressUpdate u).2⟩,
              exec_bind_eq_ok.mpr ⟨_, _, rfl, ?_⟩, rfl,
              t.addresses.handle_upToDate u, fun u' hget => ?_⟩
            · rw [exec_lift]
              exact congrArg (·, _) hok
            · rw [hu] at hget
              cases hget
              exact ⟨v, hv, hle⟩
      obtain ⟨t', ht', hserver', hmono, hknows⟩ := htake
      have hsigned' : t'.server.peerAddresses.Signed := by
        rw [hserver', hserver]
        exact hsigned
      obtain ⟨s', hs', hlast, hmono', hall⟩ := ih hsigned'
      refine ⟨s', ?_, ?_, fun k' => ?_, fun k' hk' => ?_⟩
      · show exec (_ >>= _) s = _
        rw [exec_bind_of_ok ht, exec_bind_of_ok ht', hs']
      · rw [hlast, hserver', hserver]
      · rw [← haddr]
        exact (hmono' k').trans (hmono k')
      · rcases List.mem_cons.mp hk' with rfl | hmem
        · exact (hmono' k').trans hknows
        · intro u hu
          refine hall k' hmem u ?_
          rw [hserver', hserver]
          exact hu

/-- Params that are read back as what was sent, with numbers that fit. -/
structure Sendable (p : ConsensusParams D) : Prop where
  fits : p.Representable
  read : ConsensusParams.fromRaw p.toRaw = .ok p

/-- Params that a node has for a round are handed on, with the addresses it knows. -/
theorem fetchParams_served [LawfulBao D] {s : Call (AddressDb S) S}
    (hsigned : s.server.peerAddresses.Signed) {r : BlockRound} {p : ConsensusParams D}
    (hparams : (c.db.getConsensusParams r : Outcome Empty _) = .ok p) (hp : Sendable p)
    (context : String) :
    ∃ s', exec (fetchParams (handleRequest c) r (Hashing.paramsHash p)
        (Hashing.paramsLen p) context) s = (.ok p, s') ∧
      s'.server.peerAddresses = s.server.peerAddresses ∧
      (∀ k, s'.addresses.UpToDate s.addresses k) ∧
      ∀ k ∈ p.peers.items, s'.addresses.UpToDate s.server k := by
  obtain ⟨s', hs', hserver, hmono, hall⟩ :=
    fetchAddresses_served (c := c) p.peers.items hsigned
  refine ⟨s', ?_, hserver, hmono, hall⟩
  have hraw : exec (getConsensusParams (handleRequest c) r (Hashing.paramsHash p)
      (Hashing.paramsLen p)) s = (.ok p.toRaw, s) := by
    refine getConsensusParams_eq_ok.mpr
      ⟨BaoStream.writeMessageBao D p.toRaw, ?_, rfl, ?_⟩
    · simp only [handleRequest, hparams]
    · rw [hp.fits.paramsHash, hp.fits.paramsLen]
      exact LawfulBao.read_write p.toRaw
  unfold fetchParams
  rw [exec_bind_of_ok hraw, hp.read]
  exact (exec_bind_of_ok hs').trans rfl

/-! ## The pinned block -/

omit [AddressSigning S] [RawHashing D] [BaoStream D] in
/-- A final block is served with its round. -/
theorem getFinalizedBlock_eq (hbounded : Consensus.BoundedInv c.db) {r : BlockRound}
    {b : BlockHeader D} (hb : c.db.consBlocksNotarized.get? r = some b)
    (hfinal : r < c.finalityConsensus) :
    getFinalizedBlock c r = some (Consensus.notarized b (c.db.getVotesProposal r)) := by
  have hround := hbounded.round_eq r b hb
  have hprev : c.db.getPrevNotarizedBlock (r + 1) = some b := by
    refine (Consensus.getPrevNotarizedBlock_eq_some hbounded.round_eq).mpr
      ⟨?_, ?_, fun r' b' hb' hlt => ?_⟩
    · rw [hround]
      exact hb
    · rw [hround]
      exact Nat.lt_succ_self r
    · rw [hround]
      exact Nat.lt_succ_iff.mp hlt
  unfold getFinalizedBlock
  rw [if_neg (not_le.mpr hfinal), if_pos (hbounded.bounded r b hb), hprev, Option.map_some,
    hround]

section Runs

variable [DecidableEq S] [Signing D S]

omit [AddressSigning S] [RawHashing D] [BaoStream D] in
/-- A block that no other takes the place of stays. -/
theorem step_keepsBlock {r : BlockRound} {b : BlockHeader D} (c : Consensus D S)
    (op : ConsensusOp D S) (hround : Consensus.RoundInv c.db)
    (hb : c.db.consBlocksNotarized.get? r = some b) (hg : Consensus.KeepsBlock r c op) :
    (c.step op).db.consBlocksNotarized.get? r = some b := by
  obtain ⟨c₁, hphase, hblock, hend⟩ := Consensus.step_closed c op hround
  have hb₁ : c₁.db.consBlocksNotarized.get? r = some b := by
    cases hphase with
    | same => exact hb
    | vote i resp params db _ hin =>
        rw [hin.notarized_eq]
        exact hb
    | notarized resp params db hok _ hin => exact hin.keeps hb fun hd => hg hd hok
    | finality k resp c₁ hf =>
        rw [hf.sameBlocks.notarized]
        exact hb
    | paramsChange =>
        rw [(Consensus.insertConsensusParams_sameBlocks _ _ _).notarized]
        exact hb
    | reopen fs c₁ hf =>
        have hsame : Consensus.SameBlocks c.db c₁.db := hf.sameBlocks
        rw [hsame.notarized]
        exact hb
  rcases hend with ⟨hstop, _⟩ | ⟨v, hv⟩
  · rw [hstop]
    exact hb₁
  · exact hv.notarized_mono hblock hb₁

/-- What a node needs to know of itself to serve an invite. -/
structure Serves (p : ConsensusParams D) (c : Consensus D S) : Prop where
  bounded : Consensus.BoundedInv c.db
  params : Consensus.ParamsInv c
  records : Consensus.RecordsInv c.db
  first : (c.db.getConsensusParams 0 : Outcome Empty _) = .ok p

omit [AddressSigning S] [RawHashing D] [BaoStream D] in
theorem step_serves [CollisionFree D] {p : ConsensusParams D} (c : Consensus D S)
    (op : ConsensusOp D S) (h : Serves p c) (hg : Consensus.BelowLast c op) :
    Serves p (c.step op) where
  bounded := Consensus.step_boundedInv c op h.bounded hg
  params := Consensus.step_paramsInv c op h.bounded.toRoundInv h.params
  records := Consensus.step_recordsInv c op hg h.bounded h.params h.records
  first := Consensus.step_getConsensusParams c op h.bounded.toRoundInv h.params
    (Nat.zero_le _) h.first

omit [AddressSigning S] [RawHashing D] [BaoStream D] [DecidableEq S] in
theorem init_serves {p : ConsensusParams D} {key : Option PeerPubkey}
    {pinned : Option (BlockRound × D)} {c : Consensus D S}
    (h : Consensus.init p Db.empty key pinned = .ok c) : Serves p c where
  bounded := (Consensus.init_chainInv h).toBoundedInv
  params := Consensus.init_paramsInv h
  records := Consensus.init_recordsInv h
  first := Consensus.init_scheduled h 0

omit [AddressSigning S] [RawHashing D] [BaoStream D] [DecidableEq S] [Signing D S] in
theorem generateInviteCode_initParams {p : ConsensusParams D} {irohAddr : IrohAddress}
    {invite : Invite D} (hp : (c.db.getConsensusParams 0 : Outcome Empty _) = .ok p)
    (h : generateInviteCode c irohAddr = .ok invite) :
    invite.initParams = some (Hashing.paramsHash p, Hashing.paramsLen p) := by
  obtain ⟨initParams, hinit, h⟩ := Outcome.bind_eq_ok.mp h
  obtain rfl := Outcome.pure_eq_ok.mp h
  rw [hp] at hinit
  cases hinit
  rfl

omit [DecidableEq S] in
/-- The pin is served: the block, the params of its round, and the addresses. -/
theorem fetchPin_served [LawfulBao D] {p : ConsensusParams D} (hc : Serves p c)
    (hsend : ∀ r q, (c.db.getConsensusParams r : Outcome Empty _) = .ok q → Sendable q)
    {invite : Invite D}
    (hpin : ∀ r hash, invite.pin = some (r, hash) → r < c.finalityConsensus ∧
      ∃ b, c.db.consBlocksNotarized.get? r = some b ∧ Hashing.blockHash b = hash)
    {s : Call (AddressDb S) S} (hsigned : s.server.peerAddresses.Signed) :
    ∃ s', exec (fetchPin (handleRequest c) invite) s = (.ok (), s') ∧
      ∀ k, s'.addresses.UpToDate s.addresses k := by
  unfold fetchPin
  cases heq : invite.pin with
  | none => exact ⟨s, rfl, AddressDb.upToDate_refl _⟩
  | some pin =>
      obtain ⟨r, hash⟩ := pin
      obtain ⟨hfinal, b, hb, hhash⟩ := hpin r hash heq
      obtain ⟨q, hq⟩ := hc.records.notarized r b hb
      have hblock : exec (getBlockHashed (handleRequest c) r hash) s =
          (.ok (Consensus.notarized b (c.db.getVotesProposal r)), s) := by
        refine getBlockHashed_eq_ok.mpr ⟨?_, rfl, hc.bounded.round_eq r b hb, hhash⟩
        show ((getFinalizedBlock c r).map Answer.block, s.server) = _
        rw [getFinalizedBlock_eq hc.bounded hb hfinal]
        rfl
      obtain ⟨s', hs', _, hmono, _⟩ := fetchParams_served hsigned hq.scheduled
        (hsend r q hq.scheduled) "Failed to parse consensus params"
      refine ⟨s', ?_, hmono⟩
      dsimp only
      rw [exec_bind_of_ok hblock]
      show exec (fetchParams _ r b.consensusParamsHash b.consensusParamsLen _ >>= _) s = _
      rw [hq.paramsHash, hq.paramsLen, exec_bind_of_ok hs']
      rfl

/-- An invite that a node has made out can be used with the node, now or later, as long
as it has not replaced the pinned block and still takes it for final: joining succeeds,
with the params the node itself has started with, and all addresses the node knows of
the first peers are known after it. -/
theorem invite_works [CollisionFree D] [LawfulBao D] {p : ConsensusParams D}
    {key₀ : Option PeerPubkey} {pin₀ : Option (BlockRound × D)} {c₀ : Consensus D S}
    {ops₀ ops : List (ConsensusOp D S)} {irohAddr : IrohAddress} {invite : Invite D}
    (hinit : Consensus.init p Db.empty key₀ pin₀ = .ok c₀)
    (hops₀ : Trail.Guarded Consensus.step Consensus.BelowLast c₀ ops₀)
    (hinvite : generateInviteCode (c₀.run ops₀) irohAddr = .ok invite)
    (hops : Trail.Guarded Consensus.step (fun c op => Consensus.BelowLast c op ∧
      ∀ pin ∈ invite.pin, Consensus.KeepsBlock pin.1 c op) (c₀.run ops₀) ops)
    (hfinal : ∀ pin ∈ invite.pin, pin.1 < ((c₀.run ops₀).run ops).finalityConsensus)
    (hsend : ∀ r q, (((c₀.run ops₀).run ops).db.getConsensusParams r : Outcome Empty _) =
      .ok q → Sendable q)
    (updates : List (SignedAddressUpdate S)) {known : AddressDb S}
    (hknown : known.peerAddresses = handleAddressUpdates updates)
    (own : AddressDb S) (key : Option PeerPubkey) :
    ∃ c s', exec (consensusJoinStaticInner (handleRequest ((c₀.run ops₀).run ops))
        Db.empty invite key) ⟨known, own⟩ = (.ok c, s') ∧
      Consensus.init p Db.empty key invite.pin = .ok c ∧
      ∀ k ∈ p.peers.items, s'.addresses.UpToDate known k := by
  have hmid : Serves p (c₀.run ops₀) :=
    hops₀.invariant (I := Serves p) step_serves (init_serves hinit)
  have hkept : Serves p ((c₀.run ops₀).run ops) ∧ ∀ r hash, invite.pin = some (r, hash) →
      ∃ b, ((c₀.run ops₀).run ops).db.consBlocksNotarized.get? r = some b ∧
        Hashing.blockHash b = hash := by
    refine hops.invariant (I := fun c => Serves p c ∧ ∀ r hash,
      invite.pin = some (r, hash) → ∃ b, c.db.consBlocksNotarized.get? r = some b ∧
        Hashing.blockHash b = hash) (fun c op h hg => ⟨step_serves c op h.1 hg.1, ?_⟩)
      ⟨hmid, fun r hash hpin => ?_⟩
    · intro r hash hpin
      obtain ⟨b, hb, hhash⟩ := h.2 r hash hpin
      exact ⟨b, step_keepsBlock c op h.1.bounded.toRoundInv hb (hg.2 _ hpin), hhash⟩
    · obtain ⟨b, F, hb, hhash, -, -⟩ :=
        generateInviteCode_pin hmid.bounded.round_eq hinvite hpin
      exact ⟨b, hb, hhash⟩
  have hfirst := generateInviteCode_initParams hmid.first hinvite
  generalize (c₀.run ops₀).run ops = c' at hfinal hsend hkept ⊢
  obtain ⟨hserves, hpinned⟩ := hkept
  have hsigned : known.peerAddresses.Signed := by
    rw [hknown]
    exact handleAddressUpdates_signed updates
  obtain ⟨c, hstart⟩ : ∃ c : Consensus D S,
      Consensus.init p Db.empty key invite.pin = .ok c :=
    Consensus.init_returns_iff.mpr (Consensus.init_returns_iff.mp ⟨c₀, hinit⟩)
  obtain ⟨s₁, hs₁, hserver, _, hall⟩ :=
    fetchParams_served (s := ⟨known, own⟩) hsigned hserves.first
      (hsend 0 p hserves.first) "Failed to parse init consensus params"
  obtain ⟨s₂, hs₂, hmono⟩ := fetchPin_served hserves hsend
    (fun r hash hpin => ⟨hfinal _ hpin, hpinned r hash hpin⟩)
    (s := s₁) (by rw [hserver]; exact hsigned)
  refine ⟨c, s₂, ?_, hstart, fun k hk => (hmono k).trans (hall k hk)⟩
  have hfetch : exec (fetchInitParams (handleRequest c') invite) ⟨known, own⟩ =
      (.ok (some p), s₁) := by
    unfold fetchInitParams
    rw [hfirst]
    exact (exec_bind_of_ok hs₁).trans rfl
  unfold consensusJoinStaticInner
  rw [exec_bind_of_ok hfetch, exec_bind_of_ok hs₂]
  show exec (lift _) s₂ = _
  rw [hstart]
  rfl

/-- The next round of the federation of one. -/
def soloFourth : ConsensusOp RawDigest RawSig :=
  soloProposal (some (soloBlock (some (soloBlock (some (soloBlock none 0)) 1)) 2)) 3

set_option maxRecDepth 2000 in
/-- The invite of a federation of one, used after one more round. -/
theorem solo_invite_works : ∃ (c₀ : Consensus RawDigest RawSig) (invite : Invite RawDigest),
    generateInviteCode (c₀.run soloOps) 5 = .ok invite ∧ invite.pin ≠ none ∧
    ∃ c s', exec (consensusJoinStaticInner (handleRequest ((c₀.run soloOps).run
        [soloFourth])) Db.empty invite none) ⟨⟨handleAddressUpdates [soloAddress],
          .empty, .empty⟩, .empty⟩ = (.ok c, s') ∧
      Consensus.init soloParams Db.empty none invite.pin = .ok c ∧
      ∀ k ∈ soloParams.peers.items, s'.addresses.UpToDate
        ⟨handleAddressUpdates [soloAddress], .empty, .empty⟩ k := by
  have hrun : (Consensus.init soloParams (Db.empty : Db RawDigest RawSig) (some 10)
      none).Returns fun c₀ =>
        Trail.Guarded Consensus.step Consensus.BelowLast c₀ soloOps ∧
        Outcome.Returns (generateInviteCode (c₀.run soloOps) 5) fun invite =>
          Trail.Guarded Consensus.step (fun c op => Consensus.BelowLast c op ∧
            ∀ pin ∈ invite.pin, Consensus.KeepsBlock pin.1 c op) (c₀.run soloOps)
            [soloFourth] ∧
          (∀ pin ∈ invite.pin,
            pin.1 < ((c₀.run soloOps).run [soloFourth]).finalityConsensus) ∧
          (∀ e ∈ ((c₀.run soloOps).run [soloFourth]).db.consParams.entries,
            e.2 = soloParams) ∧ invite.pin ≠ none := by
    decide +kernel
  obtain ⟨c₀, hinit, hops₀, hrun⟩ := Outcome.returns_iff.mp hrun
  obtain ⟨invite, hinvite, hops, hfinal, hparams, hpin⟩ := Outcome.returns_iff.mp hrun
  refine ⟨c₀, invite, hinvite, hpin, invite_works hinit hops₀ hinvite hops hfinal
    (fun r q hq => ?_) [soloAddress] rfl .empty none⟩
  obtain ⟨e, -, hget⟩ := Db.getConsensusParams_eq_ok.mp hq
  obtain rfl : q = soloParams := hparams _ (SortedTable.mem_entries.mpr hget)
  exact ⟨ConsensusParams.representable_value soloBytes,
    fromRaw_toRaw_value rfl (by decide)⟩

end Runs

end Node

end Bfte
