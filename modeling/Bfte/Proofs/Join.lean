import Bfte.Core.RawDigest
import Bfte.Node.Join
import Bfte.Proofs.Pins

/-!
# What a joining node can be made to believe

Every answer is checked against something the node has already: params and blocks
against their hashes, which come from the invite or from a block with the right hash,
and addresses against the key they were asked for. So the server decides whether joining
works, and which addresses are known after it, but not which federation is joined.
-/

namespace Bfte

open Session Rpc

variable {σ D S : Type} [LinearOrder D] [Hashing D] [AddressSigning S]
  {srv : Server σ D S} {s s' : Call σ S}

/-! ## What a call returns -/

section Calls

omit [LinearOrder D] [Hashing D] [AddressSigning S]

theorem Rpc.request_eq_ok {req : Request} {context : String} {a : Answer D S} :
    exec (request srv req context) s = (.ok a, s') ↔
      srv req s.server = (some a, s'.server) ∧ s'.addresses = s.addresses := by
  obtain ⟨server, addresses⟩ := s
  obtain ⟨server', addresses'⟩ := s'
  rw [request, exec_bind_of_ok (exec_act _ _)]
  rcases srv req server with ⟨_ | b, t⟩
  · constructor
    · intro h
      cases h
    · rintro ⟨h, -⟩
      cases h
  · constructor
    · intro h
      cases h
      exact ⟨rfl, rfl⟩
    · rintro ⟨h, rfl⟩
      cases h
      rfl

theorem Rpc.getBlock_eq_ok {round : BlockRound} {b : Notarized D S} :
    exec (getBlock srv round) s = (.ok b, s') ↔
      srv (.getBlock round) s.server = (some (.block b), s'.server) ∧
        s'.addresses = s.addresses ∧ b.inner.round = round := by
  rw [getBlock, exec_bind_eq_ok]
  constructor
  · rintro ⟨a, t, ha, h⟩
    obtain ⟨hsrv, haddr⟩ := request_eq_ok.mp ha
    cases a with
    | block resp =>
        dsimp only at h
        by_cases hround : resp.inner.round = round
        · rw [if_neg (not_not.mpr hround)] at h
          cases h
          exact ⟨hsrv, haddr, hround⟩
        · rw [if_pos hround] at h
          cases h
    | _ => cases h
  · rintro ⟨hsrv, haddr, hround⟩
    refine ⟨.block b, s', request_eq_ok.mpr ⟨hsrv, haddr⟩, ?_⟩
    show exec (if _ then _ else _) s' = _
    rw [if_neg (not_not.mpr hround)]
    rfl

end Calls

omit [AddressSigning S] in
theorem Rpc.getBlockHashed_eq_ok {round : BlockRound} {hash : D} {b : Notarized D S} :
    exec (getBlockHashed srv round hash) s = (.ok b, s') ↔
      srv (.getBlock round) s.server = (some (.block b), s'.server) ∧
        s'.addresses = s.addresses ∧ b.inner.round = round ∧
          Hashing.blockHash b.inner = hash := by
  rw [getBlockHashed, exec_bind_eq_ok]
  constructor
  · rintro ⟨b', t, hb, h⟩
    obtain ⟨hsrv, haddr, hround⟩ := getBlock_eq_ok.mp hb
    by_cases hhash : Hashing.blockHash b'.inner = hash
    · rw [if_neg (not_not.mpr hhash)] at h
      cases h
      exact ⟨hsrv, haddr, hround, hhash⟩
    · rw [if_pos hhash] at h
      cases h
  · rintro ⟨hsrv, haddr, hround, hhash⟩
    refine ⟨b, s', getBlock_eq_ok.mpr ⟨hsrv, haddr, hround⟩, ?_⟩
    rw [if_neg (not_not.mpr hhash)]
    rfl

omit [LinearOrder D] [Hashing D] [AddressSigning S] in
theorem Rpc.getConsensusParams_eq_ok [BaoStream D] {round : BlockRound} {hash : D} {len : ℕ}
    {raw : List UInt8} :
    exec (getConsensusParams srv round hash len) s = (.ok raw, s') ↔
      ∃ stream, srv (.getConsensusParams round) s.server =
          (some (.params stream), s'.server) ∧ s'.addresses = s.addresses ∧
        BaoStream.readMessageBao len hash stream = some raw := by
  rw [getConsensusParams, exec_bind_eq_ok]
  constructor
  · rintro ⟨a, t, ha, h⟩
    obtain ⟨hsrv, haddr⟩ := request_eq_ok.mp ha
    cases a with
    | params stream =>
        dsimp only at h
        cases hread : BaoStream.readMessageBao len hash stream with
        | some raw' =>
            rw [hread] at h
            cases h
            exact ⟨stream, hsrv, haddr, hread⟩
        | none =>
            rw [hread] at h
            cases h
    | _ => cases h
  · rintro ⟨stream, hsrv, haddr, hread⟩
    refine ⟨.params stream, s', request_eq_ok.mpr ⟨hsrv, haddr⟩, ?_⟩
    dsimp only
    rw [hread]
    rfl

omit [LinearOrder D] [Hashing D] in
theorem Rpc.getPeerAddress_eq_ok {k : PeerPubkey}
    {answer : Option (SignedAddressUpdate S)} :
    exec (getPeerAddress srv k) s = (.ok answer, s') ↔
      srv (.getPeerAddress k) s.server = (some (.peerAddress answer), s'.server) ∧
        s'.addresses = s.addresses ∧
          ∀ u ∈ answer, u.inner.peerPubkey = k ∧ u.Valid := by
  rw [getPeerAddress, exec_bind_eq_ok]
  constructor
  · rintro ⟨a, t, ha, h⟩
    obtain ⟨hsrv, haddr⟩ := request_eq_ok.mp ha
    cases a with
    | peerAddress update =>
        cases update with
        | none =>
            cases h
            exact ⟨hsrv, haddr, fun u hu => by cases hu⟩
        | some u =>
            dsimp only at h
            by_cases hk : u.inner.peerPubkey = k
            · subst hk
              rw [if_neg (not_not.mpr rfl)] at h
              obtain ⟨_, t', hcheck, h⟩ := exec_bind_eq_ok.mp h
              rw [exec_lift] at hcheck
              obtain ⟨hok, rfl⟩ := Prod.mk.inj hcheck
              cases h
              refine ⟨hsrv, haddr, fun v hv => ?_⟩
              cases hv
              exact ⟨rfl, SignedAddressUpdate.verifySignature_eq_ok.mp
                (Outcome.orRaise_eq_ok.mp hok)⟩
            · rw [if_pos hk] at h
              cases h
    | _ => cases h
  · rintro ⟨hsrv, haddr, hvalid⟩
    refine ⟨.peerAddress answer, s', request_eq_ok.mpr ⟨hsrv, haddr⟩, ?_⟩
    cases answer with
    | none => rfl
    | some u =>
        obtain ⟨rfl, hu⟩ := hvalid u rfl
        show exec (if _ then _ else _) s' = _
        rw [if_neg (not_not.mpr rfl)]
        refine exec_bind_eq_ok.mpr ⟨(), s', ?_, rfl⟩
        rw [exec_lift, Outcome.orRaise_eq_ok.mpr
          (SignedAddressUpdate.verifySignature_eq_ok.mpr hu)]

/-! ## Whose addresses are stored -/

/-- Every address was there before, or was signed by a peer that is named. -/
def AddressDb.Sourced (old : AddressDb S) (named : PeerPubkey → Prop) (db : AddressDb S) :
    Prop :=
  ∀ k u, db.peerAddresses.get? k = some u → old.peerAddresses.get? k = some u ∨
    (u.Valid ∧ u.inner.peerPubkey = k ∧ named k)

theorem AddressDb.sourced_refl (old : AddressDb S) (named : PeerPubkey → Prop) :
    old.Sourced named old := fun _ _ h => Or.inl h

omit [AddressSigning S] in
theorem PeerAddresses.get?_write {db : PeerAddresses S} {update v : SignedAddressUpdate S}
    {k : PeerPubkey} (h : (db.write update).get? k = some v) :
    db.get? k = some v ∨ (k = update.inner.peerPubkey ∧ v = update) := by
  have hinsert : (db.insert update.inner.peerPubkey update).get? k = some v →
      db.get? k = some v ∨ (k = update.inner.peerPubkey ∧ v = update) := by
    intro h
    rcases SortedTable.get?_insert_eq_some h with ⟨rfl, rfl⟩ | hold
    · exact Or.inr ⟨rfl, rfl⟩
    · exact Or.inl hold
  unfold write at h
  split at h
  · split at h
    · exact Or.inl h
    · exact hinsert h
  · exact hinsert h

theorem AddressDb.Sourced.handle {old db : AddressDb S} {named : PeerPubkey → Prop}
    (h : old.Sourced named db) {update : SignedAddressUpdate S}
    (hnamed : named update.inner.peerPubkey) :
    old.Sourced named (db.handleAddressUpdate update).2 := by
  intro k u hu
  rcases handleAddressUpdate_cases db.peerAddresses update with ⟨hvalid, heq⟩ | ⟨-, heq, -⟩
  · have hdb : (Bfte.handleAddressUpdate db.peerAddresses update).1 =
        db.peerAddresses.write update := congrArg Prod.fst heq
    have hwrite : (db.peerAddresses.write update).get? k = some u := by
      rw [← hdb]
      exact hu
    rcases PeerAddresses.get?_write hwrite with hold | ⟨rfl, rfl⟩
    · exact h k u hold
    · exact Or.inr ⟨hvalid, rfl, hnamed⟩
  · refine h k u ?_
    rw [← heq]
    exact hu

/-- A property of the addresses alone. -/
abbrev OfAddresses (P : AddressDb S → Prop) (s : Call σ S) : Prop := P s.addresses

section Keeps

variable {P : AddressDb S → Prop}

omit [LinearOrder D] [Hashing D] [AddressSigning S] in
theorem Rpc.request_keeps (req : Request) (context : String) :
    Keeps (OfAddresses P) (request srv req context) := by
  refine (Keeps.act fun s h => h).bind fun answer => ?_
  cases answer with
  | some a => exact Keeps.pure a
  | none => exact Keeps.fail _

omit [AddressSigning S] in
theorem Rpc.getBlockHashed_keeps (round : BlockRound) (hash : D) :
    Keeps (OfAddresses P) (getBlockHashed srv round hash) := by
  refine ((request_keeps _ _).bind fun answer => ?_).bind fun b => ?_
  · cases answer with
    | block b =>
        dsimp only
        split_ifs
        · exact Keeps.fail _
        · exact Keeps.pure _
    | _ => exact Keeps.fail _
  · split_ifs
    · exact Keeps.fail _
    · exact Keeps.pure _

omit [LinearOrder D] [Hashing D] [AddressSigning S] in
theorem Rpc.getConsensusParams_keeps [BaoStream D] (round : BlockRound) (hash : D) (len : ℕ) :
    Keeps (OfAddresses P) (getConsensusParams srv round hash len) := by
  refine (request_keeps _ _).bind fun answer => ?_
  cases answer with
  | params stream =>
      dsimp only
      cases BaoStream.readMessageBao len hash stream with
      | some raw => exact Keeps.pure _
      | none => exact Keeps.fail _
  | _ => exact Keeps.fail _

omit [LinearOrder D] [Hashing D] in
theorem Rpc.getPeerAddress_keeps (k : PeerPubkey) :
    Keeps (OfAddresses P) (getPeerAddress srv k) := by
  refine (request_keeps _ _).bind fun answer => ?_
  cases answer with
  | peerAddress update =>
      cases update with
      | none => exact Keeps.pure _
      | some u =>
          dsimp only
          split_ifs
          · exact Keeps.fail _
          · exact (Keeps.lift _).bind fun _ => Keeps.pure _
  | _ => exact Keeps.fail _

omit [LinearOrder D] [Hashing D] in
/-- Fetching the addresses of named peers stores nothing but their addresses. -/
theorem Node.fetchAddresses_keeps {old : AddressDb S} {named : PeerPubkey → Prop}
    {peers : List PeerPubkey} (hnamed : ∀ k ∈ peers, named k) :
    Keeps (OfAddresses (old.Sourced named)) (fetchAddresses srv peers) := by
  induction peers with
  | nil => exact Keeps.pure ()
  | cons k peers ih =>
      refine (getPeerAddress_keeps k).bind_of fun s answer t h => ?_
      obtain ⟨-, -, hvalid⟩ := getPeerAddress_eq_ok.mp h
      refine Keeps.bind ?_ fun _ => ih fun k' hk => hnamed k' (List.mem_cons_of_mem _ hk)
      cases answer with
      | none => exact Keeps.pure _
      | some u =>
          refine (Keeps.act fun s hs => ?_).bind fun _ => Keeps.lift _
          have hu := hnamed k List.mem_cons_self
          rw [← (hvalid u rfl).1] at hu
          exact AddressDb.Sourced.handle hs hu

end Keeps

/-! ## Joining -/

variable [RawHashing D] [BaoStream D] [LawfulBao D]

/-- These params are behind a hash of the invite, or of a block that is. -/
def Invite.Names (invite : Invite D) (params : ConsensusParams D) : Prop :=
  ∃ raw, ConsensusParams.fromRaw raw = .ok params ∧
    (invite.initParams = some (Hashing.payloadHash raw, raw.length) ∨
      ∃ b : BlockHeader D, invite.pin = some (b.round, Hashing.blockHash b) ∧
        b.consensusParamsHash = Hashing.payloadHash raw ∧
          b.consensusParamsLen = raw.length)

namespace Node

omit [LinearOrder D] in
theorem fetchParams_ok {round : BlockRound} {hash : D} {len : ℕ} {context : String}
    {params : ConsensusParams D}
    (h : exec (fetchParams srv round hash len context) s = (.ok params, s')) :
    ∃ raw, ConsensusParams.fromRaw raw = .ok params ∧
      Hashing.payloadHash raw = hash ∧ raw.length = len := by
  obtain ⟨raw, t, hraw, h⟩ := exec_bind_eq_ok.mp h
  obtain ⟨_, -, -, hread⟩ := getConsensusParams_eq_ok.mp hraw
  obtain ⟨hlen, hhash⟩ := LawfulBao.read_eq_some _ _ _ _ hread
  cases hparams : ConsensusParams.fromRaw (D := D) raw with
  | error e =>
      rw [hparams] at h
      cases h
  | ok p =>
      rw [hparams] at h
      obtain ⟨_, t', _, h⟩ := exec_bind_eq_ok.mp h
      cases h
      exact ⟨raw, hparams, hhash, hlen⟩

omit [LinearOrder D] in
theorem fetchParams_keeps {old : AddressDb S} {named : PeerPubkey → Prop}
    {round : BlockRound} {hash : D} {len : ℕ} {context : String}
    (hnamed : ∀ raw (params : ConsensusParams D), ConsensusParams.fromRaw raw = .ok params →
      Hashing.payloadHash raw = hash → raw.length = len →
        ∀ k ∈ params.peers.items, named k) :
    Keeps (OfAddresses (old.Sourced named)) (fetchParams srv round hash len context) := by
  refine (getConsensusParams_keeps round hash len).bind_of fun s raw t h => ?_
  obtain ⟨_, -, -, hread⟩ := getConsensusParams_eq_ok.mp h
  obtain ⟨hlen, hhash⟩ := LawfulBao.read_eq_some _ _ _ _ hread
  cases hparams : ConsensusParams.fromRaw (D := D) raw with
  | error e => exact Keeps.fail _
  | ok p =>
      exact (fetchAddresses_keeps (hnamed raw p hparams hhash hlen)).bind fun _ =>
        Keeps.pure _

/-- However joining ends, the addresses it has stored are of peers the invite names. -/
theorem join_keeps (db : Db D S) (invite : Invite D) (key : Option PeerPubkey)
    (old : AddressDb S) :
    Keeps (OfAddresses (old.Sourced fun k =>
        ∃ params, invite.Names params ∧ k ∈ params.peers.items))
      (consensusJoinStaticInner srv db invite key) := by
  refine Keeps.bind ?_ fun initParams => Keeps.bind ?_ fun _ => ?_
  · unfold fetchInitParams
    split
    · next hash len hinit =>
        refine (fetchParams_keeps fun raw params hraw hhash hlen k hk => ?_).bind
          fun _ => Keeps.pure _
        refine ⟨params, ⟨raw, hraw, Or.inl ?_⟩, hk⟩
        rw [hinit, hhash, hlen]
    · exact Keeps.pure _
  · unfold fetchPin
    split
    · next round hash hpin =>
        refine (getBlockHashed_keeps round hash).bind_of fun s b t hb => ?_
        obtain ⟨-, -, hround, hbhash⟩ := getBlockHashed_eq_ok.mp hb
        refine (fetchParams_keeps fun raw params hraw hhash hlen k hk => ?_).bind
          fun _ => Keeps.pure _
        refine ⟨params, ⟨raw, hraw, Or.inr ⟨b.inner, ?_, hhash.symm, hlen.symm⟩⟩, hk⟩
        rw [hpin, hround, hbhash]
    · exact Keeps.pure _
  · cases initParams with
    | some initParams => exact Keeps.lift _
    | none => exact Keeps.fail _

/-- If joining succeeds, the consensus has been started with params behind the hash in
the invite, and with the pin. -/
theorem join_ok {db : Db D S} {invite : Invite D} {key : Option PeerPubkey}
    {c : Consensus D S}
    (h : exec (consensusJoinStaticInner srv db invite key) s = (.ok c, s')) :
    ∃ raw params, ConsensusParams.fromRaw raw = .ok params ∧
      invite.initParams = some (Hashing.payloadHash raw, raw.length) ∧
        Consensus.init params db key invite.pin = .ok c := by
  obtain ⟨initParams, t, hinit, h⟩ := exec_bind_eq_ok.mp h
  obtain ⟨_, t', _, h⟩ := exec_bind_eq_ok.mp h
  cases initParams with
  | none => cases h
  | some params =>
      have hc := Outcome.orRaise_eq_ok.mp (Prod.mk.inj h).1
      unfold fetchInitParams at hinit
      cases hinvite : invite.initParams with
      | none =>
          rw [hinvite] at hinit
          cases hinit
      | some p =>
          obtain ⟨hash, len⟩ := p
          rw [hinvite] at hinit
          obtain ⟨params', t'', hfetch, hsome⟩ := exec_bind_eq_ok.mp hinit
          cases hsome
          obtain ⟨raw, hraw, rfl, rfl⟩ := fetchParams_ok hfetch
          exact ⟨raw, params, hraw, rfl, hc⟩

omit [LinearOrder D] [AddressSigning S] [BaoStream D] [LawfulBao D] in
/-- Params of the version there is are read back from their bytes. -/
theorem fromRaw_toRaw_value {p : ConsensusParamsBytes}
    (hversion : p.consensusParamsFormatVersion = 0)
    (hclaimed : p.claimed ≤ STANDARD_LIMIT_16M) :
    ConsensusParams.fromRaw (p.value (RawHashing.digest (D := D))).toRaw =
      .ok (p.value (RawHashing.digest (D := D))) := by
  refine ConsensusParams.fromRaw_eq_ok.mpr ⟨p, ?_, rfl⟩
  rw [ConsensusParams.toRaw, ConsensusParams.toBytes_value,
    ConsensusParamsBytes.fromRaw_eq_ok, and_iff_left hversion,
    ← ConsensusParamsBytes.need_eq_claimed] at *
  exact (decodeWhole_encode ConsensusParamsBytes.decodes_params
    ConsensusParamsBytes.encodes_params).mpr hclaimed

/-- Whatever the server does, a node that joins by an invite for a federation starts a
consensus with the first params of that federation and with the pin of the invite, or
none; and in any case all it has learned of addresses are those of peers the invite
names, signed by themselves. -/
theorem join_follows_invite [CollisionFree D] (srv : Server σ D S) (s : Call σ S)
    (db : Db D S) (invite : Invite D) (key : Option PeerPubkey)
    (p : ConsensusParams D) (len : ℕ) (hp : p.Representable)
    (hread : ConsensusParams.fromRaw p.toRaw = .ok p)
    (hinvite : invite.initParams = some (Hashing.paramsHash p, len)) :
    (∀ c s', exec (consensusJoinStaticInner srv db invite key) s = (.ok c, s') →
      Consensus.init p db key invite.pin = .ok c) ∧
    ∀ k u, (exec (consensusJoinStaticInner srv db invite key) s).2.addresses.peerAddresses.get?
        k = some u →
      s.addresses.peerAddresses.get? k = some u ∨ (u.Valid ∧ u.inner.peerPubkey = k ∧
        ∃ params, invite.Names params ∧ k ∈ params.peers.items) := by
  refine ⟨fun c s' h => ?_, join_keeps db invite key s.addresses s
    (AddressDb.sourced_refl _ _)⟩
  obtain ⟨raw, params, hraw, heq, hc⟩ := join_ok h
  have hhash : Hashing.payloadHash raw = (Hashing.payloadHash p.toRaw : D) := by
    rw [← hp.paramsHash]
    exact (congrArg Prod.fst (Option.some.inj (heq.symm.trans hinvite)))
  rw [CollisionFree.payloadHash_inj _ _ hhash, hread] at hraw
  cases hraw
  exact hc

/-- The stream of a message as short as these params is the message itself. -/
instance : BaoStream RawDigest where
  writeMessageBao raw := raw
  readMessageBao len hash stream :=
    if stream.length = len ∧ Hashing.payloadHash stream = hash then some stream else none

instance : LawfulBao RawDigest where
  read_write _ := if_pos ⟨rfl, rfl⟩
  read_eq_some len hash stream raw h := by
    obtain ⟨hread, heq⟩ := Option.ite_none_right_eq_some.mp h
    exact Option.some.inj heq ▸ hread

/-- A server with the params of one peer and its address. -/
def soloServer : Server Unit RawDigest RawSig
  | .getConsensusParams _, _ => (some (.params (BaoStream.writeMessageBao RawDigest soloBytes.toRaw)), ())
  | .getPeerAddress _, _ => (some (.peerAddress (some soloAddress)), ())
  | .getBlock _, _ => (none, ())

/-- An invite without a pin. -/
def soloInvite : Invite RawDigest where
  pin := none
  initParams := some (Hashing.paramsHash soloParams, soloBytes.toRaw.length)
  address := .iroh 5

omit [LinearOrder D] [Hashing D] [AddressSigning S] [RawHashing D] in
theorem exists_of_exec {α : Type} {x : Conn σ S α} {P : α → Prop}
    (hrun : (exec x s).1.isOk = true)
    (h : ∀ a s', exec x s = (.ok a, s') → P a) : ∃ a, (exec x s).1 = .ok a ∧ P a := by
  cases hx : (exec x s).1 with
  | error e =>
      rw [hx] at hrun
      cases hrun
  | ok a => exact ⟨a, rfl, h a _ (Prod.ext hx rfl)⟩

/-- The peer joins its own federation there. -/
theorem solo_join_follows_invite : ∃ c, (exec (consensusJoinStaticInner
    soloServer Db.empty soloInvite (some 10)) ⟨(), .empty⟩).1 = .ok c ∧
      Consensus.init soloParams Db.empty (some 10) none = .ok c := by
  have hread : ConsensusParams.fromRaw soloParams.toRaw = .ok soloParams :=
    fromRaw_toRaw_value rfl (by decide)
  refine exists_of_exec ?_ (join_follows_invite soloServer ⟨(), .empty⟩
    Db.empty soloInvite (some 10) soloParams soloBytes.toRaw.length
    (ConsensusParams.representable_value soloBytes) hread rfl).1
  decide +kernel

/-! ## The history that comes with a pin -/

omit [AddressSigning S] [RawHashing D] [BaoStream D] [LawfulBao D] in
/-- The pin of an invite is a notarized block of the node that has made it out. -/
theorem generateInviteCode_pin {c : Consensus D S} {irohAddr : IrohAddress}
    {invite : Invite D}
    (hround : ∀ r b, c.db.consBlocksNotarized.get? r = some b → b.round = r)
    (h : generateInviteCode c irohAddr = .ok invite) {r : BlockRound} {hash : D}
    (hpin : invite.pin = some (r, hash)) :
    ∃ b F, c.db.consBlocksNotarized.get? r = some b ∧ Hashing.blockHash b = hash ∧
      c.db.getFinalityConsensus = some F ∧ r + 1 < F := by
  obtain ⟨initParams, _, h⟩ := Outcome.bind_eq_ok.mp h
  obtain rfl := Outcome.pure_eq_ok.mp h
  obtain ⟨b, hb, heq⟩ := Option.map_eq_some_iff.mp hpin
  obtain ⟨rfl, rfl⟩ := Prod.mk.inj heq
  cases hF : c.db.getFinalityConsensus with
  | none =>
      rw [hF] at hb
      cases hb
  | some F =>
      rw [hF] at hb
      cases hprev : BlockRound.prev F with
      | none =>
          rw [Option.bind_some, hprev] at hb
          cases hb
      | some F' =>
          rw [Option.bind_some, hprev] at hb
          obtain ⟨hget, hlt, _⟩ := (Consensus.getPrevNotarizedBlock_eq_some hround).mp hb
          unfold BlockRound.prev at hprev
          split at hprev
          · cases hprev
          · cases hprev
            exact ⟨b, F, hget, rfl, rfl, by lia⟩

section History

variable [DecidableEq S] [Signing D S] [CollisionFree D]

/-- However a node has joined by an invite, and whoever signs what it is sent from then
on: once it is past the pinned round, its blocks up to there are those of the node that
has made out the invite. -/
theorem joined_shares_history {p : ConsensusParams D} {key₀ : Option PeerPubkey}
    {pin₀ : Option (BlockRound × D)} {c₀ : Consensus D S}
    {ops₀ : List (ConsensusOp D S)}
    (hinit : Consensus.init p Db.empty key₀ pin₀ = .ok c₀)
    (hops₀ : Trail.Guarded Consensus.step Consensus.NoLateBlock c₀ ops₀)
    {irohAddr : IrohAddress} {invite : Invite D}
    (hinvite : generateInviteCode (c₀.run ops₀) irohAddr = .ok invite)
    {key : Option PeerPubkey} {c : Consensus D S}
    (hjoin : exec (consensusJoinStaticInner srv Db.empty invite key) s = (.ok c, s'))
    {r : BlockRound} {hash : D} (hpin : invite.pin = some (r, hash))
    {ops : List (ConsensusOp D S)}
    (hops : Trail.Guarded Consensus.step
      (fun c op => Consensus.NoLateBlock c op ∧ Consensus.KeepsBlock r c op) c ops)
    (hleft : r < (c.run ops).db.getCurrentRound) :
    ∀ q ≤ r, (c.run ops).db.getNotarizedBlock q =
      (c₀.run ops₀).db.getNotarizedBlock q := by
  have hchain₀ : Consensus.ChainInv (c₀.run ops₀).db :=
    hops₀.invariant (I := fun c => Consensus.ChainInv c.db) Consensus.step_chainInv
      (Consensus.init_chainInv hinit)
  obtain ⟨b, F, hb, hhash, -, -⟩ :=
    generateInviteCode_pin hchain₀.round_eq hinvite hpin
  obtain ⟨_, params, _, _, hstart⟩ := join_ok hjoin
  rw [hpin] at hstart
  have hinv : Consensus.ChainInv (c.run ops).db ∧
      Consensus.PinInv (c.run ops).db r hash :=
    hops.invariant (I := fun c => Consensus.ChainInv c.db ∧ Consensus.PinInv c.db r hash)
      (fun c op h hg => ⟨Consensus.step_chainInv c op h.1 hg.1,
        Consensus.step_pinInv c op h.1.toRoundInv h.2 hg.2⟩)
      ⟨Consensus.init_chainInv hstart, Consensus.init_pinInv hstart⟩
  obtain ⟨b', hb', hhash'⟩ := hinv.2.holds hleft
  obtain rfl : b' = b := CollisionFree.blockHash_inj _ _ (hhash'.trans hhash.symm)
  have hunique : Lineage.UniqueParent (BlockHeader.Extends (D := D)) :=
    fun _ _ _ => BlockHeader.Extends.unique
  exact hinv.1.chain.agree hunique hinv.1.round_eq hchain₀.round_eq hchain₀.chain hb' hb

/-- A block of the federation of one. -/
def soloBlock (prev : Option (BlockHeader RawDigest)) (round : BlockRound) :
    BlockHeader RawDigest :=
  .build prev 0 round soloParams [0]

/-- The proposal of the peer, as it comes in. -/
def soloProposal (prev : Option (BlockHeader RawDigest)) (round : BlockRound) :
    ConsensusOp RawDigest RawSig :=
  .vote 0 (.proposal ⟨soloBlock prev round, .msg 10 (.header (soloBlock prev round))⟩ [0])

/-- Three rounds of the federation of one. -/
def soloOps : List (ConsensusOp RawDigest RawSig) :=
  let b₀ := soloBlock none 0
  let b₁ := soloBlock (some b₀) 1
  [soloProposal none 0, soloProposal (some b₀) 1, soloProposal (some b₁) 2]

set_option maxRecDepth 2000 in
/-- The invite made out after them, and what the peer that joins by it goes through. -/
theorem solo_joined_shares_history :
    ∃ c₀ c : Consensus RawDigest RawSig, 2 < (c.run soloOps).db.getCurrentRound ∧
      ∀ q ≤ 1, (c.run soloOps).db.getNotarizedBlock q =
        (c₀.run soloOps).db.getNotarizedBlock q := by
  have hrun : (Consensus.init soloParams (Db.empty : Db RawDigest RawSig) (some 10)
      none).Returns fun c₀ =>
        Trail.Guarded Consensus.step Consensus.NoLateBlock c₀ soloOps ∧
        Outcome.Returns (generateInviteCode (c₀.run soloOps) 5) fun invite =>
          invite.pin.map Prod.fst = some 1 ∧
          Outcome.Returns (exec (consensusJoinStaticInner (handleRequest (c₀.run soloOps))
            Db.empty invite none) ⟨.empty, .empty⟩).1 fun c =>
              Trail.Guarded Consensus.step (fun c op =>
                Consensus.NoLateBlock c op ∧ Consensus.KeepsBlock 1 c op) c soloOps ∧
              2 < (c.run soloOps).db.getCurrentRound := by
    decide +kernel
  obtain ⟨c₀, hinit, hops₀, hrun⟩ := Outcome.returns_iff.mp hrun
  obtain ⟨invite, hinvite, hpin, hrun⟩ := Outcome.returns_iff.mp hrun
  obtain ⟨c, hjoin, hops, hcur⟩ := Outcome.returns_iff.mp hrun
  obtain ⟨⟨_, hash⟩, hpin, rfl⟩ := Option.map_eq_some_iff.mp hpin
  exact ⟨c₀, c, hcur, joined_shares_history hinit hops₀ hinvite
    (Prod.ext hjoin rfl) hpin hops (by lia)⟩

end History

end Node

end Bfte
