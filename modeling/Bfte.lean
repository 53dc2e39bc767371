import Bfte.Lib.SortedTable
import Bfte.Lib.Guarded
import Bfte.Lib.Quorum
import Bfte.Lib.Lineage
import Bfte.Lib.OrderStat
import Bfte.Lib.Tally
import Bfte.Lib.Bincode
import Bfte.Lib.SortedVec
import Bfte.Lib.BigEndian
import Bfte.Lib.Latest
import Bfte.Lib.Decoder
import Bfte.Lib.Format
import Bfte.Core.Outcome
import Bfte.Core.Types
import Bfte.Core.PeerSet
import Bfte.Core.Block
import Bfte.Core.Encoding
import Bfte.Core.Signed
import Bfte.Core.Concrete
import Bfte.Consensus.Tables
import Bfte.Consensus.Ctx
import Bfte.Consensus.VoteSet
import Bfte.Consensus.FinalityVote
import Bfte.Consensus.FinishRound
import Bfte.Consensus.HandleVote
import Bfte.Consensus.HandleNotarizedBlock
import Bfte.Consensus.Init
import Bfte.Consensus.Getters
import Bfte.Consensus.Steps
import Bfte.Node.RunConsensus
import Bfte.Node.RpcServer
import Bfte.Node.PeerAddress
import Bfte.App.ConsensusCtrl
import Bfte.App.CtrlModule
import Bfte.App.ProcessCitem
import Bfte.App.Run
import Bfte.App.AppApi
import Bfte.App.CitemEncoding
import Bfte.App.MetaModule
import Bfte.App.Federation
import Bfte.Db.Commit
import Bfte.Proofs.Tables
import Bfte.Proofs.Notarizations
import Bfte.Proofs.SignatureChecks
import Bfte.Proofs.FinishRound
import Bfte.Proofs.Intake
import Bfte.Proofs.Rounds
import Bfte.Proofs.Chain
import Bfte.Proofs.Params
import Bfte.Proofs.Votes
import Bfte.Proofs.Nodes
import Bfte.Proofs.VotingRule
import Bfte.Proofs.FinalityVotes
import Bfte.Proofs.FinalityValue
import Bfte.Proofs.DummyVotes
import Bfte.Proofs.Equivocation
import Bfte.Proofs.Citems
import Bfte.Proofs.Resume
import Bfte.Proofs.AppRestart
import Bfte.Proofs.ParamsSchedule
import Bfte.Proofs.CachedCopies
import Bfte.Proofs.Restart
import Bfte.Proofs.Records
import Bfte.Proofs.RoundReach
import Bfte.Proofs.Binding
import Bfte.Proofs.ParamsOrder
import Bfte.Proofs.Replicas
import Bfte.Proofs.CtrlVotes
import Bfte.Proofs.Standing
import Bfte.Proofs.ApplyAhead
import Bfte.Proofs.RoundGate
import Bfte.Proofs.Counting
import Bfte.Proofs.RoundStop
import Bfte.Proofs.Federation
import Bfte.Proofs.RoundPanics
import Bfte.Proofs.GenuineBlocks
import Bfte.Proofs.Payloads
import Bfte.Proofs.Voters
import Bfte.Proofs.Sync
import Bfte.Proofs.Membership
import Bfte.Proofs.FormerMembers
import Bfte.Proofs.ModuleRegistry
import Bfte.Proofs.ModuleVersions
import Bfte.Proofs.Proposals
import Bfte.Proofs.MetaVotes
import Bfte.Proofs.OpenTables
import Bfte.Proofs.Approvals
import Bfte.Proofs.Unapplied
import Bfte.Proofs.MetaDecisions
import Bfte.Proofs.Pins
import Bfte.Proofs.OwnProposal
import Bfte.Proofs.Finishable
import Bfte.Proofs.Accounts
import Bfte.Proofs.Handed
import Bfte.Proofs.Delivery
import Bfte.Proofs.Agreement
import Bfte.Proofs.CommitHooks
import Bfte.Proofs.PeerSets
import Bfte.Proofs.VoteSets
import Bfte.Proofs.AddressGossip
import Bfte.Proofs.ParamsEncoding
import Bfte.Proofs.CitemEncoding
import Bfte.Core.RawDigest
import Bfte.Node.Join
import Bfte.Proofs.Starting
import Bfte.Proofs.JoinWorks
import Bfte.Proofs.LoopRefines
import Bfte.Proofs.AppReplicas
import Bfte.Proofs.Progress
import Bfte.Proofs.ParamsReplicas
import Bfte.Proofs.FinalityProgress
import Bfte.Proofs.GossipSpread
import Bfte.App.ModuleDb
import Bfte.Proofs.ModuleDb
import Bfte.Proofs.SignHash
import Bfte.Proofs.History
