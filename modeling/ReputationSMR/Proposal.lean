import ReputationSMR.Vote

/-! `proposalAndForward.go`, with `IsCertValid` of `cert.go` and the command pool of
`command.go`: how a leader proposes, how the others forward, and one iteration of
`forwardProposalHandler`. -/
namespace ReputationSMR

open Wire FiniteMap

/-! ## Certificates of a parent block -/

/-- The loop over the signers. The outer `none` is a panic (no key, or no reputation
entry); the inner one is an early `return false` (no signature, or an error of the key
library). Whether the signature matches is not looked at. -/
def certWeight (p : Platform) (cfg : NodeConfig) (reputations : Map Nat ℚ) (bc : BlockCertificate) :
    List Nat → ℚ → Option (Option ℚ)
  | [], sum => some (some sum)
  | id :: rest, sum =>
    match bc.getSignatureFromID id with
    | none => some none
    | some sig =>
      match getPubKeyFromID cfg id with
      | none => none
      | some key =>
        if p.verify key bc.part.data sig = none then some none
        else match reputations.lookup id with
          | none => none
          | some reputation => certWeight p cfg reputations bc rest (sum + reputation)

/-- Genesis and empty blocks need no votes; an empty block is one whose extra data has
one byte. A hash that is too short to be copied panics, and so does one of an unknown
block, which is `nil`. -/
def isCertValid (p : Platform) (cfg : NodeConfig) (n : SyncHS) (bc : BlockCertificate) : Option Bool :=
  if ¬p.copies bc.data.blockHash then none
  else if (bc.getBlockInfo p).1 = emptyHash then some true
  else match n.bc.blocksByHash.lookup (bc.getBlockInfo p).1 with
    | none => none
    | some blk =>
      if blk.getExtra.length = 1 then some true
      else match certWeight p cfg (row n.reputationMap (n.view - 1)) bc bc.getSigners 0 with
        | none => none
        | some none => some false
        | some (some sum) => some (decide (n.getCertBenchMark (n.view - 1) < sum))

/-! ## Proposing -/

/-- The newest commands are taken first. -/
def SyncHS.getCmdsIfSufficient (cfg : NodeConfig) (n : SyncHS) : Option (List Bytes × SyncHS) :=
  if n.pendingCommands.length < cfg.blockSize then none
  else some (n.pendingCommands.drop (n.pendingCommands.length - cfg.blockSize),
    { n with pendingCommands := n.pendingCommands.take (n.pendingCommands.length - cfg.blockSize) })

def newHeader (p : Platform) (cert : BlockCertificate) (newHeight : Nat) (extra : Bytes) : ProtoHeader :=
  ⟨(cert.getBlockInfo p).1.bytes,[],newHeight,extra⟩

/-- The hash and the signature cover the header only. -/
def newCandidateProposal (p : Platform) (cfg : NodeConfig) (n : SyncHS) (cmds : List Bytes)
    (cert : BlockCertificate) (newHeight : Nat) (extra : Bytes) : Proposal :=
  let pheader := newHeader p cert newHeight extra
  { block := some ⟨some pheader,some ⟨cmds,cmds⟩,(p.doHash pheader.marshal).bytes⟩
    forwardSender := n.leader
    forwardSig := []
    miner := cfg.id
    miningProof := p.sign cfg.id pheader.marshal
    view := (cert.getBlockInfo p).2
    proposeEvidence := cert.toProto.1.marshal }

/-- The block of a proposal as it is stored; a candidate proposal always has one. -/
def Proposal.extBlock (p : Platform) (prop : Proposal) : Option ExtBlock :=
  prop.block.map (ExtBlock.fromProto p)

/-- The head advances before the block is stored at the new height. -/
def SyncHS.appendBlock (p : Platform) (n : SyncHS) (b : ExtBlock) : SyncHS :=
  { n with bc := { n.bc with head := n.bc.head + 1 }.store p (n.bc.head + 1) b }

def propose (p : Platform) (cfg : NodeConfig) (n : SyncHS) : Outcome :=
  match n.getCertForBlockIndex n.bc.head with
  | none => some (n,.none)
  | some cert =>
    match n.getCmdsIfSufficient cfg with
    | none => some (n,.none)
    | some (cmds,n) =>
      let prop := newCandidateProposal p cfg n cmds cert (n.bc.head + 1) []
      (prop.extBlock p).map fun block =>
        ((n.appendBlock p block).addProposaltoViewMap prop,⟨[.proposed prop],[],[]⟩)

/-- The goroutine at the end of `Propose`. -/
def proposed (n : SyncHS) (prop : Proposal) : Outcome :=
  some (n.addProposaltoMap,⟨[],[.broadcast (.prop prop)],[]⟩)

/-! ## Forwarding -/

/-- The checks that `forward` and `forwardProposalHandler` share: the block hash against
itself, the leader's signature on the header, and the certificate of the parent. -/
def checkProposal (p : Platform) (cfg : NodeConfig) (n : SyncHS) (ep : ExtProposal) : Option Bool :=
  if ¬ep.extBlock.Hashes then none
  else if p.toHash ((ep.proposal.block.map ProtoBlock.blockHash).getD []) ≠ ep.extBlock.getBlockHash p then
    some false
  else match getPubKeyFromID cfg n.leader with
    | none => none
    | some key =>
      if p.accepts key (marshalHeader ep.proposal.getHeader) ep.proposal.miningProof then
        isCertValid p cfg n ep.blockCertificate
      else some false

/-- The proposal as this node passes it on; the signature again covers the header only. -/
def signForward (p : Platform) (cfg : NodeConfig) (prop : Proposal) : Proposal :=
  { prop with
    forwardSender := cfg.id
    forwardSig := p.sign cfg.id (marshalHeader prop.getHeader) }

def forward (p : Platform) (cfg : NodeConfig) (n : SyncHS) (prop : Proposal) : Outcome :=
  match ExtProposal.fromProto p prop with
  | none => none
  | some ep =>
    match checkProposal p cfg n ep with
    | none => none
    | some false => some (n,.none)
    | some true =>
      some (n,⟨[.proposeChannel (signForward p cfg prop)],
        [.broadcast (.prop (signForward p cfg prop))],[]⟩)

/-! ## The handler of forwarded proposals -/

/-- The top of the loop: a complete set stops the handler until the view changes. -/
def SyncHS.readsForwards (cfg : NodeConfig) (n : SyncHS) : Prop :=
  size (row n.fpropMap n.view) < cfg.pMap.card

instance (cfg : NodeConfig) (n : SyncHS) : Decidable (n.readsForwards cfg) :=
  inferInstanceAs (Decidable (_ < _))

/-- All checks of the handler, the signature of the forwarding node last. -/
def checkForward (p : Platform) (cfg : NodeConfig) (n : SyncHS) (ep : ExtProposal) : Option Bool :=
  match checkProposal p cfg n ep with
  | none => none
  | some false => some false
  | some true =>
    (getPubKeyFromID cfg ep.proposal.forwardSender).map fun key =>
      p.accepts key (marshalHeader ep.proposal.getHeader) ep.proposal.forwardSig

/-- What `ensureBlockIsDelivered` finds; every outcome is only logged. -/
inductive Delivery where
  | delivered | wrongParent | missingParent
  deriving DecidableEq

/-- The height of the parent; the one before height zero wraps around. -/
def ExtBlock.parentIdx (blk : ExtBlock) : Nat := wrap64 (blk.getHeight + (2^64 - 1))

/-- `none` when there is a parent and the parent hash is too short to be copied. -/
def ensureBlockIsDelivered (p : Platform) (n : SyncHS) (blk : ExtBlock) : Option Delivery :=
  if blk.parentIdx = 0 then some .delivered
  else match n.bc.blocksByHeight.lookup blk.parentIdx with
    | none => some .missingParent
    | some parent =>
      if ¬p.copies blk.parentField then none
      else some (if parent.getBlockHash p ≠ blk.getParentHash p then .wrongParent else .delivered)

/-- The first proposal of a view is kept to compare the later ones with. -/
def SyncHS.firstProposal (n : SyncHS) (fprop : Proposal) : SyncHS × Proposal :=
  match n.proposalByviewMap.lookup n.view with
  | some first => (n,first)
  | none => ({ n with proposalByviewMap := n.proposalByviewMap.insert n.view fprop },fprop)

/-- A complete set: a follower appends the block at the height its header carries and
votes in a goroutine, whatever `ensureBlockIsDelivered` says; the leader votes at once. -/
def completeForwards (p : Platform) (cfg : NodeConfig) (n : SyncHS) (ep : ExtProposal) : Outcome :=
  if cfg.id ≠ n.leader then
    let n := { n with bc.head := n.bc.head + 1 }
    let n := n.addProposaltoMap
    let n := n.addNewBlock p ep.extBlock
    let n := n.addProposaltoViewMap ep.proposal
    (ensureBlockIsDelivered p n ep.extBlock).map fun _logged => (n,⟨[.vote ep],[],[]⟩)
  else voteForBlock p cfg n ep

def acceptForward (p : Platform) (cfg : NodeConfig) (n : SyncHS) (ep : ExtProposal) : Outcome :=
  let set := (row n.fpropMap n.view).insert ep.proposal.forwardSender ep.proposal
  let n := { n with fpropMap := n.fpropMap.insert n.view set }
  if size set < cfg.pMap.card then some (n,.none) else completeForwards p cfg n ep

def compareForward (p : Platform) (cfg : NodeConfig) (n : SyncHS) (ep : ExtProposal) : Outcome :=
  let (n,first) := n.firstProposal ep.proposal
  match ExtProposal.fromProto p first with
  | none => none
  | some ep2 =>
    if ep2.extBlock.getBlockHash p ≠ ep.extBlock.getBlockHash p then
      let n := { n with equivocatingProposalInject := true }
      -- a leader does not report itself
      some (n,if cfg.id ≠ n.leader then ⟨[.sendEqProEvidence first ep.proposal],[],[]⟩ else .none)
    else acceptForward p cfg { n with equivocatingProposalInject := false } ep

/-- One iteration, on a proposal read from `proposeChannel`. -/
def forwardProposalHandler (p : Platform) (cfg : NodeConfig) (n : SyncHS) (fprop : Proposal) : Outcome :=
  if n.equivocatingProposalInject then some (n,.none)
  else match ExtProposal.fromProto p fprop with
    | none => none
    | some ep =>
      match checkForward p cfg n ep with
      | none => none
      | some false => some (n,.none)
      | some true => compareForward p cfg n ep

/-- The goroutine of a completed set; an odd node with the injection set votes for a
block that does not exist instead. -/
def voteAfterForwards (p : Platform) (cfg : NodeConfig) (n : SyncHS) (ep : ExtProposal) : Outcome :=
  if cfg.id % 2 ≠ 0 ∧ n.maliciousVoteInject = true then
    (voteForNonLeaderBlk p cfg n).map fun (n,effect) => ({ n with maliciousVoteInject := false },effect)
  else voteForBlock p cfg n ep

end ReputationSMR
