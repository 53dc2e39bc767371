import Bfte.Lib.Spread
import Bfte.Proofs.Gossip

/-!
# Gossip can always bring everyone up to date

Which update is pushed to whom is left to chance, and a push may be lost. So nothing has to
happen. But from wherever the nodes have got to, with whatever anyone else has sent them,
there is a way for gossip alone to bring everyone up to date: any entry of the table can be
drawn, so a node can push any update it has to any peer it knows the address of, and what
is stored about a correct peer is its address.

The peer an update is about is never told of it, and need not be, for it has a later one.
-/

namespace Bfte

namespace GossipWorld

open Relation (ReflTransGen)

variable {ι S : Type} [DecidableEq ι] [AddressSigner S] {P : Places ι S}
  {w w' : GossipWorld ι S}

/-- The node has an address of the peer that the other one is. -/
def Knows (P : Places ι S) (w : GossipWorld ι S) (i j : ι) : Prop :=
  ∃ k u, P.key j = some k ∧ P.key i ≠ some k ∧ (w.dbs i).peerAddresses.get? k = some u

/-- It has an update about the peer that is as late. -/
def UpTo (k : PeerPubkey) (t : Timestamp) (i : ι) (w : GossipWorld ι S) : Prop :=
  ∃ e, (w.dbs i).peerAddresses.get? k = some e ∧ t ≤ e.inner.timestamp

/-- A turn of the push loop with the other side up, or a push that arrives. -/
def Talk : GossipOp ι S → Prop
  | .pushGossip _ _ _ up => up = true
  | .handlePush _ => True
  | _ => False

omit [DecidableEq ι] in
theorem Talk.genuine {op : GossipOp ι S} (h : Talk op) : Genuine P w op := by
  cases op with
  | pushed => exact h.elim
  | answered => exact h.elim
  | _ => trivial

/-- Nothing is signed. -/
theorem Talk.issued {op : GossipOp ι S} (h : Talk op) :
    (w.step P op).issued = w.issued := by
  cases op with
  | pushGossip => rfl
  | handlePush n =>
      unfold step
      dsimp only
      split <;> rfl
  | start => exact h.elim
  | pullGossip => exact h.elim
  | connect => exact h.elim
  | handleQuery => exact h.elim
  | takeAnswer => exact h.elim
  | pushed => exact h.elim
  | answered => exact h.elim

/-! ## One push -/

/-- Any update can be pushed to any peer whose address is known. -/
theorem step_pushGossip (h : GossipInv P w) {i j : ι} {k k' : PeerPubkey}
    {u e : SignedAddressUpdate S} (hkey : P.key j = some k) (hother : P.key i ≠ some k)
    (hknown : (w.dbs i).peerAddresses.get? k = some u)
    (he : (w.dbs i).peerAddresses.get? k' = some e) (hne : k ≠ k') :
    w.step P (.pushGossip i ⟨k, true⟩ ⟨k', true⟩ true) =
      { w with pushes := w.pushes ++ [(j, e)] } := by
  have hpick : (w.dbs i).pickPushGossipPair ⟨k, true⟩ ⟨k', true⟩ = some (k, e) := by
    unfold AddressDb.pickPushGossipPair
    rw [getRandom_self hknown, getRandom_self he]
    rfl
  have hskip : ¬ (some k = P.key i ∨ k = e.inner.peerPubkey) := by
    rintro (hown | habout)
    · exact hother hown.symm
    · rw [(h.known i k' e he).1] at habout
      exact hne habout
  obtain ⟨_, haddr, _⟩ := h.addr hkey hknown
  have hpush : (w.dbs i).pushGossip P.nodeId (P.key i) ⟨k, true⟩ ⟨k', true⟩ true =
      (some (P.addr j, e), w.dbs i) := by
    unfold AddressDb.pushGossip
    rw [hpick]
    dsimp only
    rw [if_neg hskip, AddressDb.connect_of_get? hknown haddr (P.nodeId_addr j)]
    rfl
  unfold step
  dsimp only
  rw [hpush]
  simp [setDb, P.holder_addr j]

/-- And it is handled when it arrives. -/
theorem upTo_handlePush {j : ι} {e : SignedAddressUpdate S} (hvalid : e.Valid) :
    UpTo e.inner.peerPubkey e.inner.timestamp j
      (step P { w with pushes := w.pushes ++ [(j, e)] } (.handlePush w.pushes.length)) := by
  have hlast : (w.pushes ++ [(j, e)])[w.pushes.length]? = some (j, e) := by simp
  obtain ⟨e', he', hle⟩ := timestamp_le_of_valid (w.dbs j).peerAddresses hvalid
  refine ⟨e', ?_, hle⟩
  unfold step
  dsimp only
  rw [hlast]
  simp only [setDb, Function.update_self]
  exact he'

/-! ## Turn by turn -/

variable [LawfulAddressSigner S]

/-- A world that a run can have led to. -/
abbrev SoundWorld (P : Places ι S) := { w : GossipWorld ι S // GossipInv P w }

/-- One turn of gossip. -/
def Turn (P : Places ι S) (s s' : SoundWorld P) : Prop :=
  ∃ op, Talk op ∧ s'.1 = s.1.step P op

def SoundWorld.turn (s : SoundWorld P) (op : GossipOp ι S) (h : Talk op) : SoundWorld P :=
  ⟨s.1.step P op, (step_cases h.genuine).inv s.2⟩

theorem turn_turn (s : SoundWorld P) {op : GossipOp ι S} (h : Talk op) :
    Turn P s (s.turn op h) := ⟨op, h, rfl⟩

omit [LawfulAddressSigner S] in
theorem Turn.later {s s' : SoundWorld P} (h : Turn P s s') : Later s.1 s'.1 := by
  obtain ⟨op, hop, heq⟩ := h
  rw [heq]
  exact (step_cases hop.genuine).later

/-- An update spreads along the addresses that are known. -/
theorem spreads_upTo (P : Places ι S) (k : PeerPubkey) (t : Timestamp) :
    Spread.Spreads (Turn P) (fun i j s => Knows P s.1 i j) fun i s => UpTo k t i s.1 where
  link i j s s' hturn hlink := by
    obtain ⟨kj, u, hkey, hother, hget⟩ := hlink
    obtain ⟨u', hget', _⟩ := hturn.later i kj u hget
    exact ⟨kj, u', hkey, hother, hget'⟩
  keep i s s' hturn hhas := by
    obtain ⟨e, he, hle⟩ := hhas
    obtain ⟨e', he', hle'⟩ := hturn.later i k e he
    exact ⟨e', he', hle.trans hle'⟩
  pass i j s hlink hhas := by
    obtain ⟨kj, u, hkey, hother, hget⟩ := hlink
    obtain ⟨e, he, hle⟩ := hhas
    by_cases habout : kj = k
    · -- the peer itself has none that is earlier
      subst habout
      obtain ⟨_, _, own, hown, hle'⟩ := s.2.addr hkey he
      exact ⟨s, .refl, own, hown, hle.trans hle'⟩
    · have hpush : Talk (.pushGossip i ⟨kj, true⟩ ⟨k, true⟩ true : GossipOp ι S) := rfl
      have hhandle : Talk (.handlePush s.1.pushes.length : GossipOp ι S) := trivial
      refine ⟨(s.turn _ hpush).turn _ hhandle,
        (ReflTransGen.single (turn_turn s hpush)).tail (turn_turn _ hhandle), ?_⟩
      obtain ⟨hpeer, hvalid, _⟩ := s.2.known i k e he
      obtain ⟨e', he', hle'⟩ : UpTo k e.inner.timestamp j
          ((s.1.step P (.pushGossip i ⟨kj, true⟩ ⟨k, true⟩ true)).step P
            (.handlePush s.1.pushes.length)) := by
        rw [step_pushGossip s.2 hkey hother hget he habout, ← hpeer]
        exact upTo_handlePush hvalid
      exact ⟨e', he', hle.trans hle'⟩

omit [LawfulAddressSigner S] in
/-- Turns are a run in which nothing is signed. -/
theorem exists_ops {s s' : SoundWorld P} (h : ReflTransGen (Turn P) s s') :
    ∃ ops, (∀ op ∈ ops, Talk op) ∧ s'.1 = s.1.run P ops ∧ s'.1.issued = s.1.issued := by
  induction h with
  | refl => exact ⟨[], by simp, rfl, rfl⟩
  | @tail s' s'' _ hturn ih =>
      obtain ⟨ops, hops, hrun, hissued⟩ := ih
      obtain ⟨op, hop, heq⟩ := hturn
      refine ⟨ops ++ [op], ?_, ?_, ?_⟩
      · exact List.forall_mem_append.mpr ⟨hops, List.forall_mem_singleton.mpr hop⟩
      · unfold run at hrun ⊢
        rw [Trail.run_append, ← hrun]
        exact heq
      · rw [heq, hop.issued]
        exact hissued

/-- What some of the nodes have can come to all that know of each other. -/
theorem can_spread (s : SoundWorld P) {nodes : List ι}
    (hpath : ∀ i ∈ nodes, ∀ j ∈ nodes, ReflTransGen (Knows P s.1) i j) :
    Spread.Can (Turn P) (fun s' => ∀ i ∈ nodes,
      ∀ e ∈ (s.1.dbs i).peerAddresses.entries, ∀ j ∈ nodes,
        UpTo e.1 e.2.inner.timestamp j s'.1) s := by
  -- one goal for each entry there is
  let goals := nodes.flatMap fun i => (s.1.dbs i).peerAddresses.entries
  have hall : Spread.Can (Turn P) (fun s' => ∀ e ∈ goals, ∀ j ∈ nodes,
      UpTo e.1 e.2.inner.timestamp j s'.1) s := by
    refine Spread.can_all
      (P := fun (e : PeerPubkey × SignedAddressUpdate S) (s' : SoundWorld P) =>
        ∀ j ∈ nodes, UpTo e.1 e.2.inner.timestamp j s'.1)
      (fun e _ s₁ s₂ hturn hall j hj => ?_) fun e he s' hs' => ?_
    · exact (spreads_upTo P e.1 e.2.inner.timestamp).keep j s₁ s₂ hturn (hall j hj)
    · obtain ⟨i, hi, hmem⟩ := List.mem_flatMap.mp he
      have hspreads := spreads_upTo P e.1 e.2.inner.timestamp
      refine hspreads.can_reach_all (i := i) (fun j hj => ?_) ?_
      · exact ReflTransGen.mono (fun a b hlink => (hspreads.link a b).reach hs' hlink) _ _
          (hpath i hi j hj)
      · exact (hspreads.keep i).reach hs' ⟨e.2, SortedTable.mem_entries'.mp hmem, le_refl _⟩
  obtain ⟨s', hreach, hgoals⟩ := hall
  exact ⟨s', hreach, fun i hi e he => hgoals e (List.mem_flatMap.mpr ⟨i, hi, he⟩)⟩

omit [DecidableEq ι] [LawfulAddressSigner S] in
/-- Two updates of a correct peer are the same if they are as late. -/
theorem GossipInv.inner_eq (h : GossipInv P w) {i j j' : ι} {k : PeerPubkey}
    {u u' : SignedAddressUpdate S} (hkey : P.key j = some k)
    (hget : (w.dbs i).peerAddresses.get? k = some u)
    (hget' : (w.dbs j').peerAddresses.get? k = some u')
    (htime : u.inner.timestamp = u'.inner.timestamp) : u.inner = u'.inner := by
  obtain ⟨_, haddr, _⟩ := h.addr hkey hget
  obtain ⟨_, haddr', _⟩ := h.addr hkey hget'
  have hpeer := (h.known i k u hget).1
  have hpeer' := (h.known j' k u' hget').1
  obtain ⟨⟨t, p, a⟩, sig⟩ := u
  obtain ⟨⟨t', p', a'⟩, sig'⟩ := u'
  dsimp only at *
  rw [htime, hpeer, hpeer', haddr, haddr']

/-- From wherever a run has led to, there are turns of the push loop that bring nodes that
know of each other up to date: each of them has an update as late as any of them had about
any peer, and about each other they all have what the peer itself has. -/
theorem gossip_can_converge {ops : List (GossipOp ι S)} (nodes : List ι)
    (hgenuine : Trail.Guarded (step P) (Genuine P) empty ops)
    (hpath : ∀ i ∈ nodes, ∀ j ∈ nodes, ReflTransGen (Knows P (empty.run P ops)) i j) :
    ∃ turns, (∀ op ∈ turns, Talk op) ∧
      (∀ i ∈ nodes, ∀ j ∈ nodes, ∀ k e,
        ((empty.run P ops).dbs i).peerAddresses.get? k = some e →
        ∃ e', ((empty.run P (ops ++ turns)).dbs j).peerAddresses.get? k = some e' ∧
          e.inner.timestamp ≤ e'.inner.timestamp) ∧
      ∀ i ∈ nodes, ∀ j ∈ nodes, ∀ k own, P.key j = some k →
        ((empty.run P (ops ++ turns)).dbs j).peerAddresses.get? k = some own →
        ∃ e, ((empty.run P (ops ++ turns)).dbs i).peerAddresses.get? k = some e ∧
          e.inner = own.inner := by
  have hinv := run_inv hgenuine (gossipInv_empty P)
  obtain ⟨s', hreach, hall⟩ := can_spread ⟨empty.run P ops, hinv⟩ hpath
  obtain ⟨turns, hturns, hrun, hissued⟩ := exists_ops hreach
  have hinv' : GossipInv P s'.1 := s'.2
  have heq : empty.run P (ops ++ turns) = s'.1 := by
    rw [hrun]
    unfold run
    rw [Trail.run_append]
  refine ⟨turns, hturns, ?_⟩
  rw [heq]
  refine ⟨fun i hi j hj k e he => ?_, fun i hi j hj k own hkey hown => ?_⟩
  · exact hall i hi (k, e) (SortedTable.mem_entries.mpr he) j hj
  · -- nothing has been signed, so the peer has had its latest one all along
    have hmem := (hinv'.addr hkey hown).1
    rw [hissued] at hmem
    obtain ⟨j', hkey', _, own₀, hown₀, hle₀⟩ := hinv.issued own hmem
    rw [(hinv'.known j k own hown).1] at hkey' hown₀
    obtain rfl := P.key_inj j j' k hkey hkey'
    obtain ⟨e, he, hle⟩ := hall j hj (k, own₀) (SortedTable.mem_entries.mpr hown₀) i hi
    obtain ⟨_, _, own', hown', hle'⟩ := hinv'.addr hkey he
    rw [hown] at hown'
    cases hown'
    exact ⟨e, he, hinv'.inner_eq hkey he hown (le_antisymm hle' (hle₀.trans hle))⟩

/-- Both peers know of each other, and peer 11 has started anew since. -/
def pairOps : List (GossipOp (Fin 3) PlainAddressSig) :=
  [.start ten 5, .start eleven 7, .pushed ten (plainUpdate 7 11 21),
    .pushed eleven (plainUpdate 5 10 20), .start eleven 9]

theorem gossip_can_converge_pair : ∃ turns, (∀ op ∈ turns, Talk op) ∧
    ∃ e, ((empty.run trio (pairOps ++ turns)).dbs ten).peerAddresses.get? 11 = some e ∧
      9 ≤ e.inner.timestamp := by
  have hgenuine : Trail.Guarded (step trio) (Genuine trio) empty pairOps := by
    decide +kernel
  have hzero : Knows trio (empty.run trio pairOps) ten eleven :=
    ⟨11, plainUpdate 7 11 21, by decide, by decide, by decide +kernel⟩
  have hone : Knows trio (empty.run trio pairOps) eleven ten :=
    ⟨10, plainUpdate 5 10 20, by decide, by decide, by decide +kernel⟩
  have hpath : ∀ i ∈ [ten, eleven], ∀ j ∈ [ten, eleven],
      ReflTransGen (Knows trio (empty.run trio pairOps)) i j := by
    intro i hi j hj
    simp only [List.mem_cons, List.not_mem_nil, or_false] at hi hj
    rcases hi with rfl | rfl
    · rcases hj with rfl | rfl
      · exact .refl
      · exact .single hzero
    · rcases hj with rfl | rfl
      · exact .single hone
      · exact .refl
  obtain ⟨turns, hturns, hall, -⟩ := gossip_can_converge [ten, eleven] hgenuine hpath
  exact ⟨turns, hturns, hall eleven (by simp) ten (by simp) 11 (plainUpdate 9 11 21)
    (by decide +kernel)⟩

end GossipWorld

end Bfte
