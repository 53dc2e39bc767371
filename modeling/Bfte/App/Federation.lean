import Mathlib.Logic.Function.Basic
import Bfte.App.AppApi
import Bfte.Node.RpcServer

/-!
# A federation of nodes

Several nodes and the messages between them, with a peer set that stays as it is.
Nodes that are peers come first, in the order of the peer set; after them there are
as many followers as one likes, with keys that are not in the set, or with none.

Messages are not kept. Whatever is delivered may have been made up on the way, so a
message is only held to what nobody can forge: a signature that verifies under the
key of a correct peer is for something this peer has signed. A peer that is not
correct signs anything.

A node comes with its app, as far as the app takes part in the consensus: it asks
for the next block, is handed one, and is done with it. What is in the blocks is left
out, but for the payload, which has to decode.
-/

namespace Bfte

/-- The params all rounds have, with at least one peer and no more of them Byzantine
than the federation is made for. -/
structure Federation (D : Type) where
  params : ConsensusParams D
  byz : PeerPubkey → Bool
  distinct : params.peers.items.Nodup
  manned : 1 ≤ params.peers.len
  few : params.peers.items.countP byz ≤ (NumPeers.mk params.peers.len).maxFaulty

/-- A node, the round its app asks for next, the call the app waits in, the block it
is at, and the blocks it was handed. -/
structure Peer (D S : Type) [LinearOrder D] where
  node : Node D S
  place : BlockRound
  waiting : Option Waiting
  block : Option (BlockHeader D)
  handed : List (BlockHeader D)

/-- Something that happens to a node or to its app. -/
inductive PeerOp (D S : Type) where
  | node (op : NodeOp D S)
  | app

namespace Peer

variable {D S X : Type} [LinearOrder D]

/-- The database of the node. -/
abbrev db (p : Peer D S) : Db D S := p.node.consensus.db

/-- A node that has just been started. -/
def start (c : Consensus D S) : Peer D S := ⟨.start c, 0, none, none, []⟩

/-- The call asks for a round. -/
def request (p : Peer D S) (reqRound : BlockRound) : Peer D S :=
  { p with waiting := some (.finalityConsensus reqRound) }

/-- A block is handed to the app; it may be the same as before a restart. -/
def hand (p : Peer D S) (b : BlockHeader D) : Peer D S :=
  { p with
    waiting := none
    block := some b
    handed := if p.handed.getLast? = some b then p.handed else p.handed ++ [b] }

/-- The app is done with the block. -/
def finishBlock (p : Peer D S) (b : BlockHeader D) : Outcome Empty (Peer D S) := do
  let round ← BlockRound.nextExpect b.round
  return { p with place := round, block := none }

variable [Hashing D]

/-- `ack_and_wait_next_block`, up to where it waits next. -/
def ackAndWaitNextBlock (decode : BlockPayloadRaw → Option (List (CItem X)))
    (p : Peer D S) : Waiting → Outcome Empty (Peer D S)
  | .finalityConsensus reqRound =>
      let cur := p.node.consensus.finalityConsensus
      .ok (if reqRound < cur then
        { p with waiting := some (.finalitySelfVote reqRound cur) }
      else p)
  | .finalitySelfVote reqRound curConsensus =>
      let cur := p.node.consensus.finalitySelfVote
      .ok (if reqRound < cur then
        { p with waiting := some (.nextBlock reqRound curConsensus cur) }
      else p)
  | .nextBlock reqRound curConsensus curSelfVote => do
      let block ← Outcome.expect (p.db.getNextNotarizedBlock reqRound)
        "Must have a notarized block since own finality is past this height"
      if block.round < curConsensus ∧ block.round < curSelfVote then
        let b ← AppNode.finalizedBlock decode p.db block
        return p.hand b.header
      else return p.request block.round

/-- One step of the app: through with a block, in the call, or on to the call. -/
def nextApp (decode : BlockPayloadRaw → Option (List (CItem X)))
    (p : Peer D S) : Outcome Empty (Peer D S) :=
  match p.block, p.waiting with
  | some b, _ => p.finishBlock b
  | none, some w => p.ackAndWaitNextBlock decode w
  | none, none => .ok (p.request p.place)

variable [DecidableEq S] [Signing D S]

/-- One op. After a restart the app asks again for where it was. -/
def step (decode : BlockPayloadRaw → Option (List (CItem X))) (p : Peer D S) :
    PeerOp D S → Peer D S
  | .node .restart => { p with
      node := p.node.step .restart
      waiting := none
      block := none }
  | .node op => { p with node := p.node.step op }
  | .app =>
      match p.nextApp decode with
      | .ok p' => p'
      | .error _ => p

end Peer

/-- The nodes, peers first. -/
abbrev World (D S : Type) [LinearOrder D] := ℕ → Peer D S

/-- An op of one of them. -/
structure WorldOp (D S : Type) where
  node : ℕ
  op : PeerOp D S

namespace World

variable {D S X : Type} [LinearOrder D] [Hashing D] [DecidableEq S] [Signing D S]

/-- One op. -/
def step (decode : BlockPayloadRaw → Option (List (CItem X))) (w : World D S)
    (a : WorldOp D S) : World D S :=
  Function.update w a.node ((w a.node).step decode a.op)

/-- A sequence of ops. -/
def run (decode : BlockPayloadRaw → Option (List (CItem X))) (w : World D S)
    (ops : List (WorldOp D S)) : World D S :=
  Trail.run (step decode) w ops

end World

namespace Federation

variable {D S : Type} [LinearOrder D]

/-- The node is a peer that runs the code. -/
def Correct (F : Federation D) (i : ℕ) : Prop :=
  ∃ k ∈ F.params.peers.items[i]?, F.byz k = false

instance (F : Federation D) (i : ℕ) : Decidable (F.Correct i) :=
  match h : F.params.peers.items[i]? with
  | none => .isFalse fun ⟨_, hk, _⟩ => by
      rw [h] at hk
      cases hk
  | some k => decidable_of_iff (F.byz k = false) (by
      unfold Correct
      rw [h]
      simp)

/-- All nodes have just been started. -/
structure Started [Hashing D] (F : Federation D) (w : World D S) : Prop where
  peer : ∀ i k, F.params.peers.items[i]? = some k → ∃ pinned c,
    Consensus.init F.params Db.empty (some k) pinned = .ok c ∧ w i = .start c
  follower : ∀ i, F.params.peers.items[i]? = none → ∃ key pinned c,
    (∀ k ∈ key, k ∉ F.params.peers.items) ∧
      Consensus.init F.params Db.empty key pinned = .ok c ∧ w i = .start c

variable [Signing D S]

/-- If the signature is one of a correct peer, the peer has cast it. -/
def Unforged (F : Federation D) (w : World D S) (h : BlockHeader D) (sig : S) :
    Prop :=
  ∀ i < F.params.peers.len, ∀ k ∈ F.params.peers.items[i]?, F.byz k = false →
    Signing.verify k sig (SignMsg.header h) = true → h ∈ (w i).node.cast

/-- If the finality vote is one of a correct peer, the peer has shown it. -/
def UnforgedFinality (F : Federation D) (w : World D S) (round : BlockRound)
    (sig : S) : Prop :=
  ∀ i < F.params.peers.len, ∀ k ∈ F.params.peers.items[i]?, F.byz k = false →
    Signing.verify k sig (SignMsg.finality round : SignMsg D) = true →
      round ∈ (w i).node.consensus.trace.finalitySelfVote

/-- The signatures of a notarization are not forged. -/
def UnforgedBlock (F : Federation D) (w : World D S) (b : Notarized D S) : Prop :=
  ∀ e ∈ b.sigs.entries, F.Unforged w b.inner e.2

/-- A message has no forged signatures, and the params stay. -/
def Genuine (F : Federation D) (w : World D S) (a : WorldOp D S) : Prop :=
  match a.op with
  | .node (.recvVote _ resp) => F.Unforged w resp.block.inner resp.block.sig
  | .node (.recvNotarized resp) => F.UnforgedBlock w resp.block
  | .node (.recvFinality _ resp) => F.UnforgedFinality w resp.update resp.sig
  | .node (.paramsChange _ _ _) => False
  | _ => True

set_option synthInstance.maxSize 400 in
instance (F : Federation D) (w : World D S) (h : BlockHeader D) (sig : S) :
    Decidable (F.Unforged w h sig) :=
  inferInstanceAs (Decidable (∀ i < _, ∀ k ∈ _, _))

set_option synthInstance.maxSize 400 in
instance (F : Federation D) (w : World D S) (round : BlockRound) (sig : S) :
    Decidable (F.UnforgedFinality w round sig) :=
  inferInstanceAs (Decidable (∀ i < _, ∀ k ∈ _, _))

instance (F : Federation D) (w : World D S) (b : Notarized D S) :
    Decidable (F.UnforgedBlock w b) := inferInstanceAs (Decidable (∀ e ∈ _, _))

instance (F : Federation D) (w : World D S) (a : WorldOp D S) :
    Decidable (F.Genuine w a) := by
  unfold Genuine
  split <;> infer_instance

variable {X : Type} [Hashing D] [DecidableEq S]

/-- The federation can get into this state. -/
def Reachable (F : Federation D)
    (decode : BlockPayloadRaw → Option (List (CItem X))) (w : World D S) : Prop :=
  ∃ w₀ ops, F.Started w₀ ∧
    Trail.Guarded (World.step decode) F.Genuine w₀ ops ∧
      w = World.run decode w₀ ops

end Federation

end Bfte
