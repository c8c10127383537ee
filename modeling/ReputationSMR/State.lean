import ReputationSMR.Certificate

/-! One node: its configuration, the fields of `SyncHS` that the protocol reads or
writes, the local maps of the handler goroutines, and the work it has pending in
channels and goroutines. Locks, network handles and logging are left out. -/
namespace ReputationSMR

open Wire FiniteMap

/-- Which of the `startConsensusTimer` variants `command.go` calls. -/
inductive TimerMode where
  | plain | withhold | equivocation | maliciousProposal | maliciousVote
  deriving DecidableEq

/-- `pMap` and `nodeKeyMap` are the ids of the peers and of the known public keys;
`startEvidence` says whether the parts marked `(start*)` are compiled in. -/
structure NodeConfig where
  id : Nat
  numNodes : Nat
  blockSize : Nat
  pMap : Finset Nat
  nodeKeyMap : Finset Nat
  startEvidence : Bool
  timerMode : TimerMode

/-- The configuration of a node in a network in which everyone knows everyone. -/
def NodeConfig.complete (numNodes blockSize : Nat) (startEvidence : Bool) (timerMode : TimerMode)
    (id : Nat) : NodeConfig :=
  ⟨id,numNodes,blockSize,(Finset.range numNodes).erase id,Finset.range numNodes,startEvidence,timerMode⟩

/-- The package-level counters of `Reputation.go`. -/
structure Counters where
  proposalnum : Nat
  votenum : Nat
  maliproposalnum : Nat
  equiprospoalnum : Nat
  withpropsoalnum : Nat
  malivotenum : Nat
  deriving DecidableEq

/-- A record of behaviour: for a view, the nodes that showed it, with value one. -/
abbrev BehaviourMap := Map Nat (Map Nat Nat)

structure SyncHS where
  pendingCommands : List Bytes
  certMap : Map Nat BlockCertificate
  voteMap : BehaviourMap
  voteMaliMap : BehaviourMap
  proposalMap : BehaviourMap
  equiproposalMap : BehaviourMap
  withproposalMap : BehaviourMap
  maliproposalMap : BehaviourMap
  reputationMap : Map Nat (Map Nat ℚ)
  proposalByviewMap : Map Nat Proposal
  bc : BlockChain
  leader : Nat
  view : Nat
  equivocatingProposalInject : Bool
  withholdingProposalInject : Bool
  maliciousProposalInject : Bool
  maliciousVoteInject : Bool
  maliProspoalExists : Bool
  maliVoteExists : Bool
  gcallFuncFinish : Bool
  /-- Tokens in `SyncChannel`. -/
  syncChannel : Nat
  /-- Timers that were started and have not called back. -/
  timers : Nat
  counters : Counters
  /-- The local map of `forwardProposalHandler`. -/
  fpropMap : Map Nat (Map Nat Proposal)
  /-- The local `voteMap` of `voteHandler`. -/
  receivedVotes : Map Nat (Map Nat ProtoVote)
  isCertified : Map Nat Bool

def initialNodescore : ℚ := 1 / 1000000

/-- `Init` and `Setup`: a thousand empty commands are pending from the start. -/
def SyncHS.init : SyncHS where
  pendingCommands := List.replicate 1000 []
  certMap := Finmap.singleton 0 genesisCert
  voteMap := ∅
  voteMaliMap := ∅
  proposalMap := ∅
  equiproposalMap := ∅
  withproposalMap := ∅
  maliproposalMap := ∅
  reputationMap := ∅
  proposalByviewMap := ∅
  bc := .newChain
  leader := 0
  view := 1
  equivocatingProposalInject := false
  withholdingProposalInject := false
  maliciousProposalInject := false
  maliciousVoteInject := false
  maliProspoalExists := false
  maliVoteExists := false
  gcallFuncFinish := true
  syncChannel := 0
  timers := 0
  counters := ⟨0,0,0,0,0,0⟩
  fpropMap := ∅
  receivedVotes := ∅
  isCertified := ∅

/-- What waits in a channel, and the goroutines that have been started: each reads the
state when it runs, not when it was spawned. -/
inductive Job where
  /-- `go n.forward(prop)` in `protocol`. -/
  | forward (prop : Proposal)
  | proposeChannel (prop : Proposal)
  | maliPropseChannel (prop : Proposal)
  | voteChannel (v : ProtoVote)
  | eqEvidenceChannel (e : EquivocationEvidence)
  | maliProEvidenceChannel (e : MalicousProposalEvidence)
  | maliVoteEvidenceChannel (e : MalicousVoteEvidence)
  /-- The goroutine of the `startConsensusTimer` variants. -/
  | round
  /-- The goroutine at the end of `Propose`. -/
  | proposed (prop : Proposal)
  /-- The goroutine that votes after a completed set of forwards. -/
  | vote (ep : ExtProposal)
  /-- The goroutine of `voteHandler` that stores a certificate. -/
  | addCert (bc : BlockCertificate) (height : Nat)
  | sendEqProEvidence (prop1 prop2 : Proposal)
  | sendMalivoteEvidence (v : ProtoVote)
  deriving DecidableEq

/-- A message handed to the network: `Broadcast` sends one message to every peer,
`EquivocatingBroadcast` one message to node zero and another to the rest. -/
inductive Outgoing where
  | broadcast (m : SyncHSMsg)
  | equivocating (m1 m2 : SyncHSMsg)
  deriving DecidableEq

def Outgoing.to (o : Outgoing) (peer : Nat) : SyncHSMsg :=
  match o with
  | .broadcast m => m
  | .equivocating m1 m2 => if peer = 0 then m1 else m2

/-- What a step does besides changing the state: jobs it leaves pending, messages it
sends, and blocks it acknowledges to the clients. -/
structure Effect where
  jobs : List Job
  sends : List Outgoing
  acks : List ExtBlock

def Effect.none : Effect := ⟨[],[],[]⟩

/-- The result of a piece of code; `none` is a panic. -/
abbrev Outcome := Option (SyncHS × Effect)

/-! ## Access to the maps -/

namespace SyncHS

def getCertForBlockIndex (n : SyncHS) (idx : Nat) : Option BlockCertificate := n.certMap.lookup idx

def addCert (n : SyncHS) (bc : BlockCertificate) (blockNum : Nat) : SyncHS :=
  { n with certMap := n.certMap.insert blockNum bc }

/-- One entry for the leader of the view, in place of whatever the view had; nothing
happens when the entry is there. -/
def recordLeader (m : BehaviourMap) (view leader : Nat) : BehaviourMap :=
  if at2 m view leader = some 1 then m else m.insert view ((∅ : Map Nat Nat).insert leader 1)

def addProposaltoMap (n : SyncHS) : SyncHS :=
  { n with proposalMap := recordLeader n.proposalMap n.view n.leader }

def addEquiProposaltoMap (n : SyncHS) : SyncHS :=
  { n with equiproposalMap := recordLeader n.equiproposalMap n.view n.leader }

def addWitholdProposaltoMap (n : SyncHS) : SyncHS :=
  { n with withproposalMap := recordLeader n.withproposalMap n.view n.leader }

def addMaliProposaltoMap (n : SyncHS) (prop : Proposal) : SyncHS :=
  { n with maliproposalMap := put2 n.maliproposalMap n.view prop.miner 1 }

/-- `none` when the vote has no body: `v.GetBody().Voter` then dereferences `nil`. -/
def addVotetoMap (n : SyncHS) (v : ProtoVote) : Option SyncHS :=
  v.body.map fun body => { n with voteMap := put2 n.voteMap n.view body.voter 1 }

def addMaliVotetoMap (n : SyncHS) (v : ProtoVote) : Option SyncHS :=
  v.body.map fun body => { n with voteMaliMap := put2 n.voteMaliMap n.view body.voter 1 }

def addProposaltoViewMap (n : SyncHS) (prop : Proposal) : SyncHS :=
  { n with proposalByviewMap := n.proposalByviewMap.insert n.view prop }

def addNewBlock (p : Platform) (n : SyncHS) (blk : ExtBlock) : SyncHS :=
  { n with bc := n.bc.store p blk.getHeight blk }

def changeLeader (cfg : NodeConfig) (n : SyncHS) : SyncHS :=
  { n with leader := (n.leader + 1) % cfg.numNodes }

end SyncHS

theorem at2_recordLeader (m : BehaviourMap) (view leader v i : Nat) :
    at2 (SyncHS.recordLeader m view leader) v i =
      if at2 m view leader = some 1 then at2 m v i
      else if v = view then (if i = leader then some 1 else none) else at2 m v i := by
  simp only [SyncHS.recordLeader]
  split
  next => rfl
  next => rw [at2_insert, lookup_insert]; rfl

/-- The public key of a node; `none` where the code would call a method of `nil`. -/
def getPubKeyFromID (cfg : NodeConfig) (id : Nat) : Option Nat :=
  if id ∈ cfg.nodeKeyMap then some id else none

theorem getPubKeyFromID_eq {cfg : NodeConfig} {id key : Nat} (known : getPubKeyFromID cfg id = some key) :
    key = id := by
  rw [getPubKeyFromID] at known
  split at known
  next => exact (Option.some.inj known).symm
  next => contradiction

theorem mem_of_getPubKeyFromID {cfg : NodeConfig} {id key : Nat} (known : getPubKeyFromID cfg id = some key) :
    id ∈ cfg.nodeKeyMap := by
  rw [getPubKeyFromID] at known
  split at known
  next listed => exact listed
  next => contradiction

/-- A signature check as most callers make it: no error and a match. -/
def Platform.accepts (p : Platform) (id : Nat) (data sig : Bytes) : Bool :=
  p.verify id data sig = some true

end ReputationSMR
