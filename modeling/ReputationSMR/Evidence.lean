import ReputationSMR.Proposal

/-! `evidence.go`: sending, checking and handling evidence of misbehaviour, and the
empty block of a view whose leader withheld its proposal. The validity checks return
`none` where the code dereferences an absent part of the message. -/
namespace ReputationSMR

open Wire FiniteMap

/-! ## Sending -/

def signEvidence (p : Platform) (cfg : NodeConfig) (data : EvidenceData) : Evidence :=
  ⟨some data,cfg.id,p.sign cfg.id data.marshal⟩

def sendEqProEvidence (p : Platform) (cfg : NodeConfig) (n : SyncHS) (prop1 prop2 : Proposal) : Outcome :=
  let eqEvidence := ⟨some (signEvidence p cfg ⟨n.leader,n.view⟩),some prop1,some prop2⟩
  some (n,⟨[.eqEvidenceChannel eqEvidence],[.broadcast (.eqevidence eqEvidence)],[]⟩)

def sendMaliProEvidence (p : Platform) (cfg : NodeConfig) (n : SyncHS) (prop : Proposal) : Outcome :=
  let maliproEvidence := ⟨some (signEvidence p cfg ⟨prop.miner,n.view⟩),some prop⟩
  some (n,⟨[.maliProEvidenceChannel maliproEvidence],[.broadcast (.mpevidence maliproEvidence)],[]⟩)

def sendMalivoteEvidence (p : Platform) (cfg : NodeConfig) (n : SyncHS) (v : ProtoVote) : Outcome :=
  let malivoteEvidence := ⟨some (signEvidence p cfg ⟨v.getVoter,n.view⟩),some v⟩
  some (n,⟨[.maliVoteEvidenceChannel malivoteEvidence],[.broadcast (.mvevidence malivoteEvidence)],[]⟩)

/-! ## Checking -/

/-- A signature check against the key of a node; `none` without a key. -/
def signedBy (p : Platform) (cfg : NodeConfig) (id : Nat) (data sig : Bytes) : Option Bool :=
  (getPubKeyFromID cfg id).map fun key => p.accepts key data sig

/-- The second check is made only when the first one holds. -/
def andThen (first : Option Bool) (second : Option Bool) : Option Bool :=
  match first with
  | none => none
  | some false => some false
  | some true => second

theorem andThen_true {first second : Option Bool} (both : andThen first second = some true) :
    first = some true ∧ second = some true := by
  match first with
  | none => contradiction
  | some false => exact absurd (Option.some.inj both) Bool.false_ne_true
  | some true => exact ⟨rfl,both⟩

/-- The envelope: the view it names and the signature of its origin. -/
def isEnvelopeValid (p : Platform) (cfg : NodeConfig) (n : SyncHS) (ev : Evidence) (data : EvidenceData) :
    Option Bool :=
  if data.view ≠ n.view then some false
  else signedBy p cfg ev.evOrigin data.marshal ev.orSignature

/-- Both headers must carry the leader's signature; that they differ is not checked. -/
def isEqpEvidenceValid (p : Platform) (cfg : NodeConfig) (n : SyncHS) (eq : EquivocationEvidence) :
    Option Bool := do
  let ev ← eq.evidence
  let data ← ev.evidenceData
  let header (e : Option Proposal) := marshalHeader (e.bind Proposal.getHeader)
  let proof (e : Option Proposal) := (e.map Proposal.miningProof).getD []
  let signed (e : Option Proposal) := signedBy p cfg n.leader (header e) (proof e)
  if data.misbehaviourTarget ≠ n.leader then some false
  else andThen (isEnvelopeValid p cfg n ev data) (andThen (signed eq.e1) (signed eq.e2))

def isMalipEvidenceValid (p : Platform) (cfg : NodeConfig) (n : SyncHS) (ml : MalicousProposalEvidence) :
    Option Bool := do
  let ev ← ml.evidence
  let data ← ev.evidenceData
  let mined := do
    let prop ← ml.e
    let block ← prop.block
    signedBy p cfg prop.miner (marshalHeader block.header) prop.miningProof
  if data.misbehaviourTarget = n.leader then some false
  else andThen (isEnvelopeValid p cfg n ev data) mined

/-- A vote whose owner is the leader is only logged, not refused. -/
def isMalivEvidenceValid (p : Platform) (cfg : NodeConfig) (n : SyncHS) (mlv : MalicousVoteEvidence) :
    Option Bool := do
  let vote ← mlv.e
  let voteData ← vote.data
  let ev ← mlv.evidence
  let data ← ev.evidenceData
  let signed := do
    let body ← vote.body
    signedBy p cfg body.voter voteData.marshal body.signature
  andThen (isEnvelopeValid p cfg n ev data) signed

/-! ## Empty blocks -/

/-- The block hash of the message is the empty hash, so `getBlockHash` copies the header. -/
def createAnEmptyBlock (p : Platform) (cmds : List Bytes) (cert : BlockCertificate) (newHeight : Nat)
    (extra : Bytes) : ExtBlock :=
  ExtBlock.fromProto p ⟨some (newHeader p cert newHeight extra),some ⟨cmds,cmds⟩,emptyHash.bytes⟩

/-- The byte `E`. -/
def emptyExtra : Bytes := [69]

/-- Appends an empty block to a certified head and certifies it for the current view. -/
def SyncHS.appendEmptyBlock (p : Platform) (n : SyncHS) (cert : BlockCertificate) : SyncHS :=
  let exemptyblock := createAnEmptyBlock p [] cert (n.bc.head + 1) emptyExtra
  let n := n.appendBlock p exemptyblock
  n.addCert (emptyCertificate (exemptyblock.getBlockHash p) n.view) n.view

def handleWithholdingProposal (p : Platform) (n : SyncHS) : SyncHS :=
  match n.getCertForBlockIndex n.bc.head with
  | none => n
  | some cert => (n.appendEmptyBlock p cert).addWitholdProposaltoMap

/-! ## Handlers, one iteration each -/

def equivocationEvidenceHandler (p : Platform) (cfg : NodeConfig) (n : SyncHS)
    (eqEvidence : EquivocationEvidence) : Outcome :=
  if at2 n.equiproposalMap n.view n.leader = some 1 then some (n,.none)
  else match isEqpEvidenceValid p cfg n eqEvidence with
    | none => none
    | some false => some (n,.none)
    | some true =>
      match n.getCertForBlockIndex n.bc.head with
      | none => some (n,.none)
      | some cert => some ((n.appendEmptyBlock p cert).addEquiProposaltoMap,.none)

/-- The target is looked up, the miner is recorded. -/
def maliciousProposalEvidenceHandler (p : Platform) (cfg : NodeConfig) (n : SyncHS)
    (maliProEvidence : MalicousProposalEvidence) : Outcome :=
  match isMalipEvidenceValid p cfg n maliProEvidence with
  | none => none
  | some false => some (n,.none)
  | some true => do
    let prop ← maliProEvidence.e
    let data ← maliProEvidence.evidence.bind Evidence.evidenceData
    match n.maliproposalMap.lookup n.view with
    | none => some (n.addMaliProposaltoMap prop,.none)
    | some maliSenderMap =>
      if n.maliProspoalExists = true ∨ data.misbehaviourTarget ∈ maliSenderMap then
        some ({ n with maliProspoalExists := false },.none)
      else some ({ n.addMaliProposaltoMap prop with maliProspoalExists := false },.none)

def maliciousVoteEvidenceHandler (p : Platform) (cfg : NodeConfig) (n : SyncHS)
    (maliVoteEvidence : MalicousVoteEvidence) : Outcome :=
  match isMalivEvidenceValid p cfg n maliVoteEvidence with
  | none => none
  | some false => some (n,.none)
  | some true => do
    let vote ← maliVoteEvidence.e
    let data ← maliVoteEvidence.evidence.bind Evidence.evidenceData
    let recorded ← n.addMaliVotetoMap vote
    match n.voteMaliMap.lookup n.view with
    | none => some (recorded,.none)
    | some maliVoterMap =>
      if n.maliVoteExists = true ∨ data.misbehaviourTarget ∈ maliVoterMap then
        some ({ n with maliVoteExists := false },.none)
      else some ({ recorded with maliVoteExists := false },.none)

/-- Node zero sees a malicious proposal without reporting it. -/
def maliciousPropsoalHandler (p : Platform) (cfg : NodeConfig) (n : SyncHS) (malipro : Proposal) : Outcome :=
  match signedBy p cfg malipro.miner (marshalHeader malipro.getHeader) malipro.miningProof with
  | none => none
  | some false => some (n,.none)
  | some true =>
    let n := { n with maliciousProposalInject := decide (malipro.miner ≠ n.leader) }
    if malipro.miner ≠ n.leader ∧ cfg.id ≠ 0 then sendMaliProEvidence p cfg n malipro else some (n,.none)

end ReputationSMR
