import ReputationSMR.Machine
import ReputationSMR.FiniteMap
import ReputationSMR.Wire
import ReputationSMR.Message
import ReputationSMR.Chain
import ReputationSMR.Certificate
import ReputationSMR.State
import ReputationSMR.Reputation
import ReputationSMR.Vote
import ReputationSMR.Proposal
import ReputationSMR.Evidence
import ReputationSMR.Client
import ReputationSMR.Node
import ReputationSMR.VoteHandler
import ReputationSMR.VoteCertificates
import ReputationSMR.ForwardHandler
import ReputationSMR.ChainSteps
import ReputationSMR.ChainSafety
import ReputationSMR.Framing
import ReputationSMR.Streams
import ReputationSMR.System
import ReputationSMR.Common
import ReputationSMR.Round
import ReputationSMR.RoundNode
import ReputationSMR.RoundSteps
import ReputationSMR.RoundEnds
import ReputationSMR.FaultFree
import ReputationSMR.Equivocation
import ReputationSMR.EquivocationRun
import ReputationSMR.Byzantine
import ReputationSMR.ReputationConsistency
import ReputationSMR.CertificateChecks
import ReputationSMR.EmptyBlocks
import ReputationSMR.Unanimity
import ReputationSMR.Authenticity
import ReputationSMR.Signing
import ReputationSMR.Convictions
import ReputationSMR.HonestVotes
import ReputationSMR.BlockAgreement
import ReputationSMR.DeliveryOrder
import ReputationSMR.RecordStability
import ReputationSMR.BlockContents
import ReputationSMR.BlockBodies
import ReputationSMR.CertificateAgreement
import ReputationSMR.FailedRounds
import ReputationSMR.Lifo
import ReputationSMR.ExactlyOnce
import ReputationSMR.EvidenceStage
import ReputationSMR.CertificateCache
import ReputationSMR.ClientAcks
import ReputationSMR.CommandPool
import ReputationSMR.EmptyIdentities
import ReputationSMR.ReputationFormula
import ReputationSMR.RoundStarts
import ReputationSMR.ViewProposals
import ReputationSMR.EvidenceRuns
import ReputationSMR.MessageSafety
import ReputationSMR.Quiescence
import ReputationSMR.SilentReplica
import ReputationSMR.MessageCodec
import ReputationSMR.ForwardsOnce
import ReputationSMR.RoundLiveness
import ReputationSMR.EarnedReputation
import ReputationSMR.ClientLoop
import ReputationSMR.StreamCluster
import ReputationSMR.EvidenceReach
import ReputationSMR.Sightings
import ReputationSMR.Channel
import ReputationSMR.Goroutines
import ReputationSMR.Flooding
import ReputationSMR.Timer
import ReputationSMR.BigFloat
import ReputationSMR.RoundedQuorum
