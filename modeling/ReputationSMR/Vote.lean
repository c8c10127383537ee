import ReputationSMR.Reputation

/-! `vote.go`: how a node votes, and one iteration of `voteHandler`. Votes are pooled
under the view of the receiver. The order in which the pool is traversed when a
certificate is built is an argument. -/
namespace ReputationSMR

open Wire FiniteMap

namespace SyncHS

/-- Half of the sum of all reputations of a view. -/
def getCertBenchMark (n : SyncHS) (viewNum : Nat) : ℚ := total (row n.reputationMap viewNum) * (1 / 2)

end SyncHS

/-- `none` when the claimed voter has no public key. -/
def isVoteValid (p : Platform) (cfg : NodeConfig) (v : ProtoVote) : Option Bool :=
  (getPubKeyFromID cfg v.getVoter).map fun key =>
    p.accepts key (marshalVoteData v.data) v.getSignature

/-- A vote of this node, signed over its data. -/
def signVote (p : Platform) (cfg : NodeConfig) (data : ProtoVoteData) : ProtoVote :=
  ⟨some data,some ⟨cfg.id,p.sign cfg.id data.marshal⟩⟩

/-- The voter records its own vote, sends it to the others and handles it itself. -/
def castVote (p : Platform) (cfg : NodeConfig) (n : SyncHS) (data : ProtoVoteData) : Outcome :=
  (n.addVotetoMap (signVote p cfg data)).map fun n =>
    (n,⟨[.voteChannel (signVote p cfg data)],[.broadcast (.vote (signVote p cfg data))],[]⟩)

def voteForBlock (p : Platform) (cfg : NodeConfig) (n : SyncHS) (ep : ExtProposal) : Outcome :=
  castVote p cfg n ⟨(ep.extBlock.getBlockHash p).bytes,n.view,ep.proposal.miner⟩

/-- The bytes of `Invalid` stand for a block that does not exist. -/
def invalidBlockHash : Bytes := [73,110,118,97,108,105,100]

def voteForNonLeaderBlk (p : Platform) (cfg : NodeConfig) (n : SyncHS) : Outcome :=
  castVote p cfg n ⟨invalidBlockHash,n.view,cfg.id⟩

/-! ## The handler -/

/-- The first vote of a view opens its pool. -/
def SyncHS.openPool (n : SyncHS) (height : Nat) : SyncHS :=
  if (n.receivedVotes.lookup height).isSome then n
  else { n with
    receivedVotes := n.receivedVotes.insert height ∅
    isCertified := n.isCertified.insert height false }

/-- The reputation of the voters in a pool; `none` when one of them has no entry, where
the code adds a `nil` number. -/
def repSumInCert (reputations : Map Nat ℚ) (votes : Map Nat ProtoVote) : Option ℚ :=
  if ∀ i ∈ votes.keys, (reputations.lookup i).isSome then some (sumAt reputations votes.keys) else none

def poolVotes (votes : Map Nat ProtoVote) (order : List Nat) : List ProtoVote :=
  (traversal votes order).filterMap votes.lookup

/-- A valid vote earns its voter credit. Unless the view is certified it joins the pool,
and when the pool holds more than half of the reputation a certificate is built from
all of it, with the hash and the view of this vote. -/
def countVote (p : Platform) (n : SyncHS) (v : ProtoVote) (data : ProtoVoteData) (order : List Nat) :
    Outcome :=
  match n.addVotetoMap v with
  | none => none
  | some n =>
    if n.isCertified.lookup n.view = some true then some (n,.none)
    else
      let votes := (row n.receivedVotes n.view).insert v.getVoter v
      let n := { n with receivedVotes := n.receivedVotes.insert n.view votes }
      match repSumInCert (row n.reputationMap n.view) votes with
      | none => none
      | some sum =>
        if sum ≤ n.getCertBenchMark n.view then some (n,.none)
        else
          let bcert := newCert (poolVotes votes order) (p.toHash data.blockHash) data.view
          let n := { n with isCertified := n.isCertified.insert n.view true }
          some (n,⟨[.addCert bcert n.view],[],[]⟩)

/-- `v.Owner` panics on a vote without data, and `ToHash` on a block hash that is too short.
The node's own id is not checked. -/
def voteHandler (p : Platform) (cfg : NodeConfig) (n : SyncHS) (v : ProtoVote) (order : List Nat) :
    Outcome :=
  match v.data with
  | none => none
  | some data =>
    if data.owner ≠ n.leader then some (n,⟨[.sendMalivoteEvidence v],[],[]⟩)
    else if ¬p.copies data.blockHash then none
    else
      let n := n.openPool n.view
      if v.getVoter ∈ row n.receivedVotes n.view then some (n,.none)
      else if v.getVoter = cfg.id then countVote p n v data order
      else match isVoteValid p cfg v with
        | none => none
        | some false => some (n,.none)
        | some true => countVote p n v data order

end ReputationSMR
