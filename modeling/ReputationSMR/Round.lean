import ReputationSMR.Common
import ReputationSMR.VoteCertificates

/-! A round with an honest leader, seen from one node: the messages of the round, and what
the handlers do with them in a state that agrees with the common one. -/
namespace ReputationSMR

open Wire FiniteMap

/-- The common state at the start of a view, the commands that the leader took and the
certificate that it extends. -/
structure Round where
  common : Common
  cmds : List Bytes
  cert : BlockCertificate

namespace Round

variable (p : Platform) (R : Round)

/-! ## The messages -/

def header : ProtoHeader := newHeader p R.cert (R.common.bc.head + 1) []

def block : ExtBlock := candidateBlock p R.cmds R.cert (R.common.bc.head + 1) []

def prop : Proposal where
  block := some ⟨some (R.header p),some ⟨R.cmds,R.cmds⟩,(p.doHash (R.header p).marshal).bytes⟩
  forwardSender := R.common.leader
  forwardSig := []
  miner := R.common.leader
  miningProof := p.sign R.common.leader (R.header p).marshal
  view := (R.cert.getBlockInfo p).2
  proposeEvidence := R.cert.toProto.1.marshal

def forward (j : Nat) : Proposal :=
  { R.prop p with
    forwardSender := j
    forwardSig := p.sign j (R.header p).marshal }

def voteData : ProtoVoteData := ⟨((R.block p).getBlockHash p).bytes,R.common.view,R.common.leader⟩

def vote (j : Nat) : ProtoVote := ⟨some (R.voteData p),some ⟨j,p.sign j (R.voteData p).marshal⟩⟩

def ext (x : Proposal) : ExtProposal := ⟨x,R.block p,decodedCert R.cert⟩

/-- A copy of the proposal, whoever passes it on. -/
structure Carries (x : Proposal) : Prop where
  block : x.block = (R.prop p).block
  evidence : x.proposeEvidence = (R.prop p).proposeEvidence
  miner : x.miner = R.common.leader
  proof : x.miningProof = (R.prop p).miningProof

theorem carries_prop : R.Carries p (R.prop p) := ⟨rfl,rfl,rfl,rfl⟩

theorem carries_forward (j : Nat) : R.Carries p (R.forward p j) := ⟨rfl,rfl,rfl,rfl⟩

structure Good (z : Setting) : Prop where
  several : 2 ≤ z.size
  common : R.common.Good p z.size
  cert : HeadCert p z.size R.common R.cert

variable {p R} {z : Setting} {i j : Nat} {n : SyncHS} {x : Proposal}

theorem Good.leader_lt (good : R.Good p z) : R.common.leader < z.size :=
  good.common.leader_lt (by have := good.several; omega)

/-! ## The checks -/

theorem decode (good : R.Good p z) (carries : R.Carries p x) :
    ExtProposal.fromProto p x = some (R.ext p x) := by
  refine ExtProposal.fromProto_eq_some.mpr ⟨_,_,carries.block,p.copies_hash _,?_,rfl⟩
  rw [carries.evidence]
  exact fromProto_toProto p R.cert good.cert.paired

theorem block_hash (laws : p.Laws) : (R.block p).getBlockHash p = p.doHash (R.header p).marshal :=
  ExtBlock.getBlockHash_cached p _ _ (laws.copies _) (laws.nonempty _)

theorem block_height : (R.block p).getHeight = R.common.bc.head + 1 := rfl

theorem block_whole : p.copies (R.block p).parentField := p.copies_hash _

theorem block_hashes : 32 ≤ (marshalHeader (R.block p).extHeader).length :=
  (R.header p).length_marshal (R.cert.getBlockInfo p).1.size.symm.le

theorem block_parent (laws : p.Laws) (good : R.Good p z) :
    R.common.bc.hashAt p R.common.bc.head = some ((R.block p).getParentHash p) := by
  have copied : (R.block p).getParentHash p = (R.cert.getBlockInfo p).1 := laws.copies _
  rw [copied, good.cert.hash laws]

/-- The chain of a node in the round: the common one, before or after it appended the
block of the round. -/
def OnChain (p : Platform) (R : Round) (bc : BlockChain) : Prop :=
  bc = R.common.bc ∨ bc = R.common.bc.extend p (R.block p)

theorem OnChain.known (laws : p.Laws) (good : R.Good p z) {bc : BlockChain} (chain : R.OnChain p bc)
    (b : ExtBlock) (nonzero : R.common.bc.head ≠ 0)
    (found : R.common.bc.blocksByHeight.lookup R.common.bc.head = some b) :
    bc.blocksByHash.lookup (b.getBlockHash p) = some b := by
  have before := good.common.newest b nonzero found
  rcases chain with rfl | rfl
  · exact before
  · have parent : (R.header p).parentHash = (b.getBlockHash p).bytes := by
      have hash := good.cert.hash laws
      rw [BlockChain.hashAt, if_neg nonzero, found] at hash
      exact congrArg Hash.bytes (Option.some.inj hash).symm
    have apart : b.getBlockHash p ≠ (R.block p).getBlockHash p := by
      intro same
      rw [block_hash laws] at same
      exact laws.fresh (R.header p) ((congrArg Hash.bytes same.symm).trans parent.symm)
    rw [BlockChain.extend, BlockChain.store_byHash, if_neg apart]
    exact before

/-- What the checks read: the view, the leader, the reputations and the chain. -/
structure Reads (p : Platform) (R : Round) (n : SyncHS) : Prop where
  view : n.view = R.common.view
  leader : n.leader = R.common.leader
  reputations : n.reputationMap = R.common.reputationMap
  chain : R.OnChain p n.bc

theorem checked (laws : p.Laws) (good : R.Good p z) (reads : R.Reads p n) (carries : R.Carries p x) :
    checkProposal p (z.config i) n (R.ext p x) = some true := by
  have hash : p.toHash ((x.block.map ProtoBlock.blockHash).getD []) = (R.block p).getBlockHash p := by
    rw [carries.block, block_hash laws]
    exact laws.copies _
  have signed : p.accepts R.common.leader (marshalHeader x.getHeader) x.miningProof = true := by
    rw [Proposal.getHeader, carries.block, carries.proof]
    exact decide_eq_true (laws.signed _ _)
  have valid : isCertValid p (z.config i) n (decodedCert R.cert) = some true :=
    good.cert.valid laws reads.view reads.reputations (reads.chain.known laws good)
  rw [← reads.leader] at signed
  refine checkProposal_eq_true.mpr ⟨fun _ => block_hashes,hash,_,?_,signed,valid⟩
  rw [reads.leader, Setting.key good.leader_lt]

theorem checked_forward (laws : p.Laws) (good : R.Good p z) (reads : R.Reads p n) (inside : j < z.size) :
    checkForward p (z.config i) n (R.ext p (R.forward p j)) = some true := by
  have signed : p.accepts j (marshalHeader (R.forward p j).getHeader) (R.forward p j).forwardSig = true :=
    decide_eq_true (laws.signed _ _)
  simp only [checkForward, checked laws good reads (R.carries_forward p j)]
  rw [show (R.ext p (R.forward p j)).proposal = R.forward p j from rfl]
  simp only [show (R.forward p j).forwardSender = j from rfl, Setting.key inside, Option.map_some, signed]

/-! ## The handlers -/

theorem forward_eq (laws : p.Laws) (good : R.Good p z) (reads : R.Reads p n) :
    ReputationSMR.forward p (z.config i) n (R.prop p) = some (n,⟨[.proposeChannel (R.forward p i)],
      [.broadcast (.prop (R.forward p i))],[]⟩) := by
  simp only [ReputationSMR.forward, decode good (R.carries_prop p),
    checked laws good reads (R.carries_prop p)]
  rfl

theorem forwardProposalHandler_eq (laws : p.Laws) (good : R.Good p z) (reads : R.Reads p n)
    (unflagged : n.equivocatingProposalInject = false)
    (reference : ∀ first, n.proposalByviewMap.lookup R.common.view = some first → R.Carries p first)
    (inside : i < z.size) (sender : j < z.size) :
    forwardProposalHandler p (z.config i) n (R.forward p j) =
      if size (n.forwardsWith (R.forward p j)) < z.size - 1 then some (n.addForward (R.forward p j),.none)
      else if i ≠ R.common.leader then
        some ((n.addForward (R.forward p j)).addForwardedBlock p (R.ext p (R.forward p j)),
          ⟨[.vote (R.ext p (R.forward p j))],[],[]⟩)
      else some ((n.addForward (R.forward p j)).voted (z.config i),⟨[.voteChannel (R.vote p i)],
        [.broadcast (.vote (R.vote p i))],[]⟩) := by
  have first : R.Carries p (n.reference (R.forward p j)) := by
    rw [SyncHS.reference, reads.view]
    cases found : n.proposalByviewMap.lookup R.common.view with
    | none => exact R.carries_forward p j
    | some first => exact reference first found
  have accepted : Accepted p (z.config i) n (R.forward p j) (R.ext p (R.forward p j)) :=
    ⟨unflagged,decode good (R.carries_forward p j),checked_forward laws good reads sender⟩
  have cast : signVote p (z.config i) (voteDataFor p n (R.ext p (R.forward p j))) = R.vote p i := by
    rw [voteDataFor, reads.view]
    rfl
  rw [forwardProposalHandler_counts accepted ⟨_,decode good first,rfl⟩ block_whole, cast,
    Setting.config_card inside, Setting.config_id, reads.leader]

theorem voteAfterForwards_eq (reads : R.Reads p n) (honest : n.maliciousVoteInject = false)
    (carries : R.Carries p x) : voteAfterForwards p (z.config i) n (R.ext p x) =
      some (n.voted (z.config i),⟨[.voteChannel (R.vote p i)],[.broadcast (.vote (R.vote p i))],[]⟩) := by
  have data : voteDataFor p n (R.ext p x) = R.voteData p := by
    rw [voteDataFor, reads.view]
    exact congrArg _ carries.miner
  simp only [voteAfterForwards, honest, Bool.false_eq_true, and_false, if_false, voteForBlock_eq, data]
  rfl

end Round

end ReputationSMR
