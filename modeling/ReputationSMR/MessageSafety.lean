import ReputationSMR.Authenticity
import ReputationSMR.Common
import ReputationSMR.Transcripts
import ReputationSMR.VoteCertificates

/-! Which messages a node survives. The handlers use what a message names without looking
whether it is there: the data of a vote, the block of a proposal, a signature for each signer
of a certificate, the parent of a block, the keys and the reputations of nodes, and the 32
bytes of every hash. In the states that a run reaches there is no other reason to crash: the
proposals that a node has stored decode, and the voters that it has pooled have reputations. -/
namespace ReputationSMR

open Wire FiniteMap

/-! ## A scan that stops early -/

/-- `Q` holds of every entry that is reached by a scan which goes on behind an entry only
when `P` holds of it. -/
def ScanSafe {α : Type} (P Q : α → Prop) (l : List α) : Prop :=
  ∀ before x after, l = before ++ x :: after → (∀ y ∈ before, P y) → Q x

section Scans

variable {α : Type} {P Q : α → Prop} {x : α} {l : List α}

theorem scanSafe_nil : ScanSafe P Q [] := by
  intro before x after split
  simp at split

theorem scanSafe_cons : ScanSafe P Q (x :: l) ↔ Q x ∧ (P x → ScanSafe P Q l) := by
  constructor
  · intro safe
    refine ⟨safe [] x l rfl (by simp),fun passed before y after split earlier => ?_⟩
    exact safe (x :: before) y after (by rw [split]; rfl) (List.forall_mem_cons.mpr ⟨passed,earlier⟩)
  · rintro ⟨first,rest⟩ before y after split earlier
    cases before with
    | nil =>
      obtain ⟨rfl,_⟩ := List.cons.inj split
      exact first
    | cons z before =>
      obtain ⟨rfl,tail⟩ := List.cons.inj split
      obtain ⟨passed,earlier⟩ := List.forall_mem_cons.mp earlier
      exact rest passed before y after tail earlier

end Scans

/-! ## What the handlers need -/

/-- The key library makes sense of the signature that the certificate has for a signer. -/
def BlockCertificate.Legible (p : Platform) (bc : BlockCertificate) (id : Nat) : Prop :=
  ∃ sig ∈ bc.getSignatureFromID id, p.verify id bc.part.data sig ≠ none

/-- A signer with a signature has a key, and a reputation if the signature is legible. -/
def SignerSafe (p : Platform) (cfg : NodeConfig) (reputations : Map Nat ℚ) (bc : BlockCertificate)
    (id : Nat) : Prop :=
  (bc.getSignatureFromID id).isSome →
    id ∈ cfg.nodeKeyMap ∧ (bc.Legible p id → (reputations.lookup id).isSome)

/-- The certificate has a whole hash, of the genesis block or a known one, and the signers of a
block that needs votes are known up to the first illegible signature. -/
def CertSafe (p : Platform) (cfg : NodeConfig) (n : SyncHS) (bc : BlockCertificate) : Prop :=
  p.copies bc.data.blockHash ∧
    ((bc.getBlockInfo p).1 = emptyHash ∨ ∃ blk ∈ n.bc.blocksByHash.lookup (bc.getBlockInfo p).1,
      blk.getExtra.length = 1 ∨
        ScanSafe (bc.Legible p) (SignerSafe p cfg (row n.reputationMap (n.view - 1)) bc) bc.getSigners)

/-- The hash that the proposal carries is the hash of its block. -/
def HashMatches (p : Platform) (ep : ExtProposal) : Prop :=
  p.toHash ((ep.proposal.block.map ProtoBlock.blockHash).getD []) = ep.extBlock.getBlockHash p

/-- The block can be hashed; the leader has a key when the hash matches, and its signature
covers a certificate that can be checked. -/
def ProposalSafe (p : Platform) (cfg : NodeConfig) (n : SyncHS) (ep : ExtProposal) : Prop :=
  ep.extBlock.Hashes ∧ (HashMatches p ep → n.leader ∈ cfg.nodeKeyMap ∧
    (p.accepts n.leader (marshalHeader ep.proposal.getHeader) ep.proposal.miningProof = true →
      CertSafe p cfg n ep.blockCertificate))

/-- The block is there with a whole hash, and the certificate has a signature for each signer. -/
def Proposal.Decodes (p : Platform) (prop : Proposal) : Prop :=
  (∃ block ∈ prop.block, p.copies block.blockHash) ∧
    (p.unmarshalCertificate prop.proposeEvidence).ids.length ≤
      (p.unmarshalCertificate prop.proposeEvidence).signatures.length

def ForwardSafe (p : Platform) (cfg : NodeConfig) (n : SyncHS) (prop : Proposal) : Prop :=
  prop.Decodes p ∧ ∀ ep ∈ ExtProposal.fromProto p prop, ProposalSafe p cfg n ep

/-- The parent hash is whole if there is a block at the height below. -/
def ParentSafe (p : Platform) (n : SyncHS) (blk : ExtBlock) : Prop :=
  blk.parentIdx ≠ 0 → (n.bc.blocksByHeight.lookup blk.parentIdx).isSome → p.copies blk.parentField

/-- The handler of forwards also needs the key of the forwarding node, once the proposal
itself has passed, and a follower needs the parent hash of the block whose last forward it
takes. A flagged view is not looked at. -/
def HandlerSafe (p : Platform) (cfg : NodeConfig) (n : SyncHS) (fprop : Proposal) : Prop :=
  n.equivocatingProposalInject = true ∨ ForwardSafe p cfg n fprop ∧
    ∀ ep ∈ ExtProposal.fromProto p fprop, checkProposal p cfg n ep = some true →
      fprop.forwardSender ∈ cfg.nodeKeyMap ∧
      (checkForward p cfg n ep = some true → AgreesWithFirst p n ep →
        cfg.pMap.card ≤ size (n.forwardsWith fprop) → cfg.id ≠ n.leader → ParentSafe p n ep.extBlock)

/-- A vote has data; one for the leader has a whole hash; if its voter is new the voter is known;
and one that counts has a body, with a reputation of its voter unless the view is certified. -/
def VoteSafe (p : Platform) (cfg : NodeConfig) (n : SyncHS) (v : ProtoVote) : Prop :=
  ∃ d ∈ v.data, d.owner = n.leader → p.copies d.blockHash ∧ (v.getVoter ∉ n.pool n.view →
    (v.getVoter ≠ cfg.id → v.getVoter ∈ cfg.nodeKeyMap) ∧
    (v.getVoter = cfg.id ∨ p.accepts v.getVoter (marshalVoteData v.data) v.getSignature = true →
      v.body.isSome ∧ (n.certified n.view ∨ ((row n.reputationMap n.view).lookup v.getVoter).isSome)))

section Handlers

variable {p : Platform} {cfg : NodeConfig} {n : SyncHS}

theorem getPubKeyFromID_isSome {id : Nat} : (getPubKeyFromID cfg id).isSome ↔ id ∈ cfg.nodeKeyMap := by
  rw [getPubKeyFromID]
  split <;> simp_all

theorem certWeight_isSome_iff {reputations : Map Nat ℚ} {bc : BlockCertificate} (ids : List Nat) (sum : ℚ) :
    (certWeight p cfg reputations bc ids sum).isSome ↔
      ScanSafe (bc.Legible p) (SignerSafe p cfg reputations bc) ids := by
  induction ids generalizing sum with
  | nil => simp [certWeight,scanSafe_nil]
  | cons id rest ih =>
    rw [scanSafe_cons, certWeight]
    cases signed : bc.getSignatureFromID id with
    | none => simp [SignerSafe,BlockCertificate.Legible,signed]
    | some sig =>
      have legible : bc.Legible p id ↔ p.verify id bc.part.data sig ≠ none := by
        simp [BlockCertificate.Legible,signed]
      by_cases known : id ∈ cfg.nodeKeyMap
      · by_cases error : p.verify id bc.part.data sig = none
        · simp [getPubKeyFromID,SignerSafe,signed,legible,known,error]
        · cases entry : reputations.lookup id with
          | none => simp [getPubKeyFromID,SignerSafe,signed,legible,known,error,entry]
          | some reputation => simp [getPubKeyFromID,SignerSafe,signed,legible,known,error,entry,ih]
      · simp [getPubKeyFromID,SignerSafe,signed,known]

theorem isCertValid_isSome_iff (bc : BlockCertificate) :
    (isCertValid p cfg n bc).isSome ↔ CertSafe p cfg n bc := by
  rw [isCertValid, CertSafe]
  by_cases whole : p.copies bc.data.blockHash
  swap
  · simp [whole]
  rw [if_neg (not_not.mpr whole), and_iff_right whole]
  by_cases genesis : (bc.getBlockInfo p).1 = emptyHash
  · simp [genesis]
  · rw [if_neg genesis]
    cases known : n.bc.blocksByHash.lookup (bc.getBlockInfo p).1 with
    | none => simp [genesis]
    | some blk =>
      by_cases votable : blk.getExtra.length = 1
      · simp [votable]
      · simp only [votable, if_false, genesis, false_or, Option.mem_def, Option.some.injEq, exists_eq_left']
        rw [← certWeight_isSome_iff bc.getSigners 0]
        split <;> simp_all

theorem checkProposal_isSome_iff (ep : ExtProposal) :
    (checkProposal p cfg n ep).isSome ↔ ProposalSafe p cfg n ep := by
  rw [checkProposal, ProposalSafe, HashMatches]
  by_cases hashes : ep.extBlock.Hashes
  swap
  · simp [hashes]
  rw [if_neg (not_not.mpr hashes), and_iff_right hashes]
  by_cases hash : p.toHash ((ep.proposal.block.map ProtoBlock.blockHash).getD []) = ep.extBlock.getBlockHash p
  · by_cases known : n.leader ∈ cfg.nodeKeyMap
    · simp only [hash, ne_eq, not_true_eq_false, if_false, getPubKeyFromID, known, if_true, true_and,
        forall_const, ← isCertValid_isSome_iff]
      split <;> simp_all
    · simp [hash,getPubKeyFromID,known]
  · simp [hash]

theorem fromProto_isSome_iff (prop : Proposal) : (ExtProposal.fromProto p prop).isSome ↔ prop.Decodes p := by
  rw [Proposal.Decodes, Option.isSome_iff_exists]
  constructor
  · rintro ⟨ep,decoded⟩
    obtain ⟨block,cert,found,whole,read,_⟩ := ExtProposal.fromProto_eq_some.mp decoded
    refine ⟨⟨block,found,whole⟩,?_⟩
    rw [BlockCertificate.fromProto] at read
    split at read
    next => contradiction
    next paired => exact Nat.le_of_not_lt paired
  · rintro ⟨⟨block,found,whole⟩,paired⟩
    exact ⟨_,ExtProposal.fromProto_eq_some.mpr ⟨block,_,found,whole,if_neg (Nat.not_lt.mpr paired),rfl⟩⟩

theorem forward_isSome_iff (prop : Proposal) : (forward p cfg n prop).isSome ↔ ForwardSafe p cfg n prop := by
  rw [forward, ForwardSafe, ← fromProto_isSome_iff (p := p)]
  cases ExtProposal.fromProto p prop with
  | none => simp
  | some ep =>
    simp only [Option.isSome_some, true_and, Option.mem_def, Option.some.injEq, forall_eq',
      ← checkProposal_isSome_iff]
    split <;> simp_all

/-- The new block is not its own parent, so the chain before it decides. -/
theorem ensureBlockIsDelivered_isSome_iff {ep : ExtProposal} {fprop : Proposal} :
    (ensureBlockIsDelivered p ((n.addForward fprop).addForwardedBlock p ep) ep.extBlock).isSome ↔
      ParentSafe p n ep.extBlock := by
  have apart : ep.extBlock.parentIdx ≠ ep.extBlock.getHeight := by
    simp only [ExtBlock.parentIdx, wrap64]
    omega
  have below : ((n.addForward fprop).addForwardedBlock p ep).bc.blocksByHeight.lookup ep.extBlock.parentIdx =
      n.bc.blocksByHeight.lookup ep.extBlock.parentIdx :=
    (BlockChain.store_byHeight _ _ _ _ _).trans (if_neg apart)
  rw [ParentSafe, ← below]
  rw [ensureBlockIsDelivered]
  by_cases first : ep.extBlock.parentIdx = 0
  · simp [first]
  · rw [if_neg first]
    cases ((n.addForward fprop).addForwardedBlock p ep).bc.blocksByHeight.lookup ep.extBlock.parentIdx with
    | none => simp
    | some parent => by_cases whole : p.copies ep.extBlock.parentField <;> simp [first,whole]

/-- The comparison with the first proposal of the view goes through when that one decodes; only
the last forward of a set has one more need. -/
theorem compareForward_isSome_iff {ep : ExtProposal} {fprop : Proposal} (same : ep.proposal = fprop)
    (stored : (ExtProposal.fromProto p (n.reference fprop)).isSome) :
    (compareForward p cfg n ep).isSome ↔ (AgreesWithFirst p n ep → cfg.pMap.card ≤ size (n.forwardsWith fprop) →
      cfg.id ≠ n.leader → ParentSafe p n ep.extBlock) := by
  obtain ⟨ep2,decoded⟩ := Option.isSome_iff_exists.mp stored
  have agrees : AgreesWithFirst p n ep ↔ ep2.extBlock.getBlockHash p = ep.extBlock.getBlockHash p := by
    rw [AgreesWithFirst, same, decoded]
    simp
  simp only [compareForward, same, firstProposal_eq, decoded, agrees]
  by_cases differ : ep2.extBlock.getBlockHash p = ep.extBlock.getBlockHash p
  · rw [if_neg (not_not.mpr differ), acceptForward_eq same]
    by_cases short : size (n.forwardsWith fprop) < cfg.pMap.card
    · simp [short]
    · by_cases follower : cfg.id = n.leader
      · simp [short,follower]
      · simp [short,follower,differ,Nat.le_of_not_lt short,ensureBlockIsDelivered_isSome_iff]
  · simp [differ]

theorem forwardProposalHandler_isSome_iff (fprop : Proposal)
    (stored : ∀ first, n.proposalByviewMap.lookup n.view = some first → first.Decodes p) :
    (forwardProposalHandler p cfg n fprop).isSome ↔ HandlerSafe p cfg n fprop := by
  rw [forwardProposalHandler, HandlerSafe]
  by_cases flagged : n.equivocatingProposalInject = true
  · simp [flagged]
  simp only [flagged, Bool.false_eq_true, if_false, false_or, ForwardSafe]
  rw [← fromProto_isSome_iff (p := p)]
  cases decoded : ExtProposal.fromProto p fprop with
  | none => simp
  | some ep =>
    have same := ExtProposal.fromProto_proposal decoded
    have first : (ExtProposal.fromProto p (n.reference fprop)).isSome := by
      rw [fromProto_isSome_iff, SyncHS.reference]
      cases known : n.proposalByviewMap.lookup n.view with
      | none =>
        rw [Option.getD_none, ← fromProto_isSome_iff (p := p), decoded]
        rfl
      | some first => exact stored first known
    simp only [Option.isSome_some, true_and, Option.mem_def, Option.some.injEq, forall_eq',
      ← checkProposal_isSome_iff, checkForward, same, ← compareForward_isSome_iff same first]
    rcases checkProposal p cfg n ep with _ | _ | _
    · simp
    · simp
    · simp only [Option.isSome_some, true_and, forall_const, ← getPubKeyFromID_isSome]
      cases getPubKeyFromID cfg fprop.forwardSender with
      | none => simp
      | some key =>
        simp only [Option.map_some, Option.isSome_some, true_and, Option.some.injEq]
        split <;> simp_all

/-- What the node knows of the pools of its votes. -/
structure PoolsListed (n : SyncHS) : Prop where
  opened : ∀ view, n.certified view → view ∈ n.receivedVotes.keys
  listed : ∀ view, ∀ i ∈ n.pool view, ((row n.reputationMap view).lookup i).isSome

theorem countVote_isSome_iff (m : SyncHS) (v : ProtoVote) (d : ProtoVoteData) (order : List Nat) :
    (countVote p m v d order).isSome ↔ v.body.isSome ∧ (m.certified m.view ∨
      ∀ i ∈ (m.poolWith v).keys, ((row m.reputationMap m.view).lookup i).isSome) := by
  simp only [countVote, SyncHS.addVotetoMap]
  cases v.body with
  | none => simp
  | some body =>
    simp only [Option.map_some, Option.isSome_some, true_and, repSumInCert]
    split
    next already => exact iff_of_true rfl (Or.inl already)
    next uncertified =>
      split
      next missing =>
        split at missing
        next => contradiction
        next unlisted =>
          apply iff_of_false
          · simp
          · rintro (already | listed)
            · exact uncertified already
            · exact unlisted listed
      next sum weighed =>
        split at weighed
        next listed =>
          apply iff_of_true
          · split <;> rfl
          · exact Or.inr listed
        next => contradiction

theorem PoolsListed.counts (pools : PoolsListed n) (v : ProtoVote) (d : ProtoVoteData) (order : List Nat) :
    (countVote p (n.openPool n.view) v d order).isSome ↔ v.body.isSome ∧
      (n.certified n.view ∨ ((row n.reputationMap n.view).lookup v.getVoter).isSome) := by
  have latch := openPool_certified n n.view n.view (pools.opened n.view)
  have weighed : (∀ i ∈ ((n.openPool n.view).poolWith v).keys, ((row n.reputationMap n.view).lookup i).isSome) ↔
      ((row n.reputationMap n.view).lookup v.getVoter).isSome := by
    rw [SyncHS.poolWith, openPool_view, openPool_pool, keys_insert]
    simp only [Finset.mem_insert, forall_eq_or_imp, Finmap.mem_keys]
    exact and_iff_left (pools.listed n.view)
  rw [countVote_isSome_iff, openPool_view, openPool_reputationMap, latch, weighed]

theorem voteHandler_isSome_iff (pools : PoolsListed n) (v : ProtoVote) (order : List Nat) :
    (voteHandler p cfg n v order).isSome ↔ VoteSafe p cfg n v := by
  rw [voteHandler, VoteSafe]
  cases found : v.data with
  | none => simp
  | some d =>
    have pool : row (n.openPool n.view).receivedVotes n.view = n.pool n.view := openPool_pool n _ _
    simp only [Option.mem_def, Option.some.injEq, exists_eq_left', openPool_view, pool,
      ← pools.counts (p := p) v d order]
    by_cases owner : d.owner = n.leader
    · by_cases whole : p.copies d.blockHash
      swap
      · simp [owner,whole]
      rw [if_neg (not_not.mpr owner), if_neg (not_not.mpr whole), forall_prop_of_true owner, and_iff_right whole]
      by_cases pooled : v.getVoter ∈ n.pool n.view
      · simp [pooled]
      · by_cases self : v.getVoter = cfg.id
        · have fresh : cfg.id ∉ n.pool n.view := self ▸ pooled
          simp [self,fresh]
        · by_cases known : v.getVoter ∈ cfg.nodeKeyMap
          · simp only [pooled, self, known, isVoteValid, getPubKeyFromID, found, ne_eq, not_false_eq_true,
              if_false, if_true, Option.map_some, forall_const, true_and, false_or]
            split <;> simp_all
          · simp [pooled,self,known,isVoteValid,getPubKeyFromID]
    · simp [owner]

end Handlers

/-! ## What a node has stored -/

/-- A node can decode its proposals, encode its certificates and weigh its pools. -/
structure Sound (p : Platform) (node : Node) : Prop where
  proposals : ∀ view prop, node.state.proposalByviewMap.lookup view = some prop → prop.Decodes p
  certs : ∀ height cert, node.state.certMap.lookup height = some cert → cert.Paired
  stores : ∀ cert height, .addCert cert height ∈ node.pending → cert.Paired
  pools : PoolsListed node.state

section Steps

variable {p : Platform} {cfg : NodeConfig} {n n' : SyncHS} {job : Job} {order : List Nat} {effect : Effect}
  {cert : BlockCertificate}

theorem candidate_decodes (n : SyncHS) (paired : cert.Paired) : (n.candidate p cfg cert).Decodes p := by
  rw [← fromProto_isSome_iff, Option.isSome_iff_exists]
  exact ⟨_,ExtProposal.fromProto_eq_some.mpr ⟨_,_,rfl,p.copies_hash _,fromProto_toProto p cert paired,rfl⟩⟩

/-- A proposal to be announced is one of the node itself, and a certificate to be stored comes
from the votes of a pool. -/
def Job.Own (p : Platform) (cfg : NodeConfig) (n : SyncHS) : Job → Prop
  | .proposed prop => ∃ cert, n.certMap.lookup n.bc.head = some cert ∧ prop = n.candidate p cfg cert
  | .addCert cert _ => cert.Paired
  | _ => True

theorem JobCase.own (case : JobCase p cfg n order job n' effect) : ∀ next ∈ effect.jobs, next.Own p cfg n := by
  cases case with
  | read _ _ _ step =>
    cases step with
    | conflict _ _ _ _ _ => split <;> simp [Effect.none,Job.Own]
    | _ => simp [Effect.none,Job.Own]
  | voteHandled _ _ _ step =>
    cases step with
    | counted _ _ _ _ counted =>
      cases counted with
      | certifies _ _ _ => simpa [Job.Own,SyncHS.certWith] using newCert_paired _ _ _
      | _ => simp [Effect.none]
    | _ => simp [Effect.none,Job.Own]
  | started _ _ step =>
    cases step with
    | proposes _ cert _ _ _ _ found _ => simp [Job.Own,found]
    | _ => simp [Effect.none,Job.Own]
  | _ => simp [Effect.none,Job.Own]

theorem JobCase.votes (case : JobCase p cfg n order job n' effect) (other : job.heldVote = none) :
    n'.receivedVotes = n.receivedVotes ∧ n'.isCertified = n.isCertified := by
  cases case with
  | voteHandled _ _ _ _ => contradiction
  | started _ _ step =>
    constructor
    · exact step.unread SyncHS.receivedVotes fun _ _ _ _ _ _ _ => rfl
    · exact step.unread SyncHS.isCertified fun _ _ _ _ _ _ _ => rfl
  | read _ _ _ step =>
    constructor
    · exact step.unread SyncHS.receivedVotes fun _ _ _ _ _ _ => rfl
    · exact step.unread SyncHS.isCertified fun _ _ _ _ _ _ => rfl
  | _ => exact ⟨rfl,rfl⟩

theorem PoolsListed.grow (pools : PoolsListed n) (votes : n'.receivedVotes = n.receivedVotes)
    (latches : n'.isCertified = n.isCertified)
    (rows : ∀ view i, ((row n.reputationMap view).lookup i).isSome → ((row n'.reputationMap view).lookup i).isSome) :
    PoolsListed n' := by
  constructor
  · intro view set
    rw [SyncHS.certified, latches] at set
    rw [votes]
    exact pools.opened view set
  · intro view i member
    rw [SyncHS.pool, votes] at member
    exact rows view i (pools.listed view i member)

theorem PoolsListed.openPool (pools : PoolsListed n) (height : Nat) : PoolsListed (n.openPool height) := by
  constructor
  · intro view set
    rw [openPool_keys]
    exact Finset.mem_insert_of_mem (pools.opened view ((openPool_certified n height view (pools.opened view)).mp set))
  · simpa using pools.listed

theorem PoolsListed.join (pools : PoolsListed n) {v : ProtoVote}
    (listed : ∀ i ∈ (n.poolWith v).keys, ((row n.reputationMap n.view).lookup i).isSome) :
    PoolsListed ((n.credit v).setPool (n.poolWith v)) := by
  constructor
  · intro view set
    simp only [SyncHS.setPool, SyncHS.credit, keys_insert]
    exact Finset.mem_insert_of_mem (pools.opened view set)
  · intro view i member
    rw [joined_pool] at member
    split at member
    next here =>
      subst here
      exact listed i (Finmap.mem_keys.mpr member)
    next => exact pools.listed view i member

theorem PoolsListed.certify (pools : PoolsListed n) (opened : n.view ∈ n.receivedVotes.keys) :
    PoolsListed n.certify := by
  constructor
  · intro view set
    rcases (certify_certified n view).mp set with rfl | set
    · exact opened
    · exact pools.opened view set
  · exact pools.listed

theorem VoteStep.listed {v : ProtoVote} (step : VoteStep p cfg n v order n' effect) (pools : PoolsListed n) :
    PoolsListed n' := by
  have opened := pools.openPool n.view
  cases step with
  | foreign _ _ _ => exact pools
  | dropped _ _ _ _ => exact opened
  | counted _ _ _ _ counted =>
    cases counted with
    | late _ => exact opened.grow rfl rfl fun _ _ entry => entry
    | pooled _ listed _ => exact opened.join listed
    | certifies _ listed _ => exact (opened.join listed).certify (by simp [SyncHS.setPool,SyncHS.credit])

theorem JobCase.pools (case : JobCase p cfg n order job n' effect) (pools : PoolsListed n) : PoolsListed n' := by
  cases held : job.heldVote with
  | none =>
    obtain ⟨votes,latches⟩ := case.votes held
    refine pools.grow votes latches fun view i entry => ?_
    rw [case.within.reputations]
    exact entry
  | some v =>
    cases case with
    | voteHandled _ _ _ step => exact step.listed pools
    | _ => contradiction

theorem isSome_insert_fill (m : Map Nat (Map Nat ℚ)) (view : Nat) (f : Nat → ℚ) (ids : List Nat) (u i : Nat)
    (entry : ((row m u).lookup i).isSome) :
    ((row (m.insert view (fill f ids (row m view))) u).lookup i).isSome := by
  rw [row_insert]
  split
  next here =>
    subst here
    rw [lookup_fill]
    split
    next => rfl
    next => exact entry
  next => exact entry

theorem ChainStep.certs (step : ChainStep p cfg n job n' effect)
    (certs : ∀ height cert, n.certMap.lookup height = some cert → cert.Paired)
    (stored : ∀ cert height, job = .addCert cert height → cert.Paired) :
    ∀ height cert, n'.certMap.lookup height = some cert → cert.Paired := by
  have inserted {height : Nat} {new : BlockCertificate} (paired : new.Paired)
      (same : n'.certMap = n.certMap.insert height new) :
      ∀ height cert, n'.certMap.lookup height = some cert → cert.Paired := by
    intro other cert found
    rw [same, lookup_insert] at found
    split at found
    next => exact Option.some.inj found ▸ paired
    next => exact certs other cert found
  cases step with
  | quiet _ same _ | certified _ _ _ _ _ _ same _ _ | extended _ _ _ same _ => exact same ▸ certs
  | stored cert height held _ same _ => exact inserted (stored cert height held) same
  | emptied _ _ _ same _ => exact inserted ⟨rfl,rfl⟩ same

end Steps

section Runs

variable {p : Platform} {cfg : NodeConfig} {node node' : Node} {event : NodeEvent} {trace : List NodeEvent}

theorem Sound.init : Sound p .init := by
  refine ⟨fun _ _ found => ?_,fun height cert found => ?_,fun _ _ member => ?_,fun _ set => ?_,fun _ _ member => ?_⟩
  · exact absurd found (Option.some_ne_none _).symm
  · have known : Node.init.state.certMap = (∅ : Map Nat BlockCertificate).insert 0 genesisCert := rfl
    rw [known, lookup_insert] at found
    split at found
    next => exact Option.some.inj found ▸ ⟨rfl,rfl⟩
    next => exact absurd found (by simp)
  · exact absurd member List.not_mem_nil
  · exact absurd set (Option.some_ne_none _).symm
  · exact absurd member (Finmap.notMem_empty)

theorem NodeCase.sound {sends : List Outgoing} (case : NodeCase p cfg node event node' sends)
    (sound : Sound p node) : Sound p node' := by
  obtain ⟨proposals,certs,stores,pools⟩ := sound
  cases case with
  | connected =>
    refine ⟨proposals,certs,stores,pools.grow rfl rfl ?_⟩
    intro view i entry
    rw [clientConnects, initialReputationMap_eq]
    exact isSome_insert_fill _ _ _ _ view i entry
  | commanded cmd n' jobs case =>
    cases case with
    | pooled _ _ _ _ _ rounds =>
      refine ⟨proposals,certs,?_,pools.grow rfl rfl fun _ _ entry => entry⟩
      intro cert height member
      rcases List.mem_append.mp member with old | new
      · exact stores cert height old
      · exact absurd (rounds _ new) (by simp)
  | received m =>
    refine ⟨proposals,certs,?_,pools⟩
    intro cert height member
    rcases List.mem_append.mp member with old | new
    · exact stores cert height old
    · exact absurd (protocol_fromNetwork new) (by simp [Job.fromNetwork])
  | worked index order job n' jobs sends found case =>
    have taken : job ∈ node.pending := List.mem_of_getElem? found
    refine ⟨?_,?_,?_,case.pools pools⟩
    · intro view prop known
      rcases case.informed.proposals view prop known with old | ⟨_,learnt⟩
      · exact proposals view prop old
      · cases learnt with
        | forwarded ep _ accepted =>
          rw [← fromProto_isSome_iff (p := p), accepted.decoded]
          rfl
        | proposed _ _ _ member =>
          obtain ⟨cert,head,rfl⟩ := case.own _ member
          exact candidate_decodes _ (certs _ cert head)
    · refine case.step.chain.certs certs ?_
      rintro cert height rfl
      exact stores cert height taken
    · intro cert height member
      rcases List.mem_append.mp member with old | new
      · exact stores cert height (List.mem_of_mem_eraseIdx old)
      · exact case.own _ new
  | calledBack n' acks case =>
    cases case with
    | kept _ _ | advanced _ _ _ _ =>
      exact ⟨proposals,certs,stores,pools.grow rfl rfl fun view i entry => isSome_insert_fill _ _ _ _ view i entry⟩

theorem Sound.run (run : (nodeMachine p cfg).Run .init trace node) : Sound p node := by
  apply run.invariant (I := Sound p) Sound.init
  intro node node' event sound _ moved
  obtain ⟨_,case⟩ := nodeMachine_cases moved
  exact case.sound sound

end Runs

/-! ## Messages -/

def Job.proposalOrVote : Job → Bool
  | .forward _ | .proposeChannel _ | .voteChannel _ => true
  | _ => false

/-- What the handler needs to which `protocol` passes the message. -/
def MessageSafe (p : Platform) (cfg : NodeConfig) (n : SyncHS) : SyncHSMsg → Prop
  | .prop prop =>
    if prop.forwardSender = n.leader then prop.miner = n.leader → ForwardSafe p cfg n prop
    else HandlerSafe p cfg n prop
  | .vote v => VoteSafe p cfg n v
  | _ => True

theorem protocol_completes_iff {p : Platform} {cfg : NodeConfig} {n : SyncHS} (order : List Nat)
    (stored : ∀ first, n.proposalByviewMap.lookup n.view = some first → first.Decodes p) (pools : PoolsListed n)
    (m : SyncHSMsg) :
    (∀ job ∈ protocol cfg n m, job.proposalOrVote = true → (runJob p cfg n order job).isSome) ↔
      MessageSafe p cfg n m := by
  cases m with
  | prop prop =>
    simp only [protocol, MessageSafe]
    split
    next =>
      split
      next mine => simp [Job.proposalOrVote,runJob,mine,forward_isSome_iff]
      next other => simp [Job.proposalOrVote,other]
    next => simp [Job.proposalOrVote,runJob,forwardProposalHandler_isSome_iff prop stored]
  | vote v => simp [protocol,MessageSafe,Job.proposalOrVote,runJob,voteHandler_isSome_iff pools]
  | eqevidence _ | mpevidence _ | mvevidence _ =>
    simp only [protocol, MessageSafe, iff_true]
    split <;> simp [Job.proposalOrVote]
  | ack _ | tx _ | unset => simp [protocol,MessageSafe]

/-- In every state that a run reaches, before the first client has connected or after, the
handlers of proposals and votes complete on exactly the messages that name only what is there,
whether a message is handled when it arrives or later. -/
theorem handlers_complete_iff {p : Platform} {cfg : NodeConfig} {trace : List NodeEvent} {node : Node}
    (run : (nodeMachine p cfg).Run .init trace node) :
    (∀ m order, (∀ job ∈ protocol cfg node.state m, job.proposalOrVote = true →
      (runJob p cfg node.state order job).isSome) ↔ MessageSafe p cfg node.state m) ∧
    (∀ prop, (forward p cfg node.state prop).isSome ↔ ForwardSafe p cfg node.state prop) ∧
    (∀ fprop, (forwardProposalHandler p cfg node.state fprop).isSome ↔ HandlerSafe p cfg node.state fprop) ∧
    ∀ v order, (voteHandler p cfg node.state v order).isSome ↔ VoteSafe p cfg node.state v := by
  have sound := Sound.run run
  have stored := sound.proposals node.state.view
  refine ⟨fun m order => protocol_completes_iff order stored sound.pools m,forward_isSome_iff,?_,?_⟩
  · exact fun fprop => forwardProposalHandler_isSome_iff fprop stored
  · exact voteHandler_isSome_iff sound.pools

def followerOfTwo : NodeConfig := .complete 2 1 true .plain 1

def voteForLeader (i : Nat) : ProtoVote := signVote transparent (.complete 2 1 true .plain i) ⟨fives,1,0⟩

/-- Once a client has connected, the vote of the leader is counted. -/
theorem leader_vote_completes : ∃ node, (nodeMachine transparent followerOfTwo).Run .init [.connect] node ∧
    (voteHandler transparent followerOfTwo node.state (voteForLeader 0) []).isSome := by
  obtain ⟨node,run,listed⟩ := Guarded.Machine.reaches
    (fun node : Node => ((row node.state.reputationMap node.state.view).lookup 0).isSome)
    (show ((nodeMachine transparent followerOfTwo).replay [.connect] .init).any _ = true by decide +kernel)
  refine ⟨node,run,((handlers_complete_iff run).2.2.2 _ _).mpr ⟨⟨fives,1,0⟩,rfl,fun _ => ⟨?_,fun _ => ⟨?_,?_⟩⟩⟩⟩
  · exact (by decide)
  · exact fun _ => by decide
  · exact fun _ => ⟨rfl,Or.inr listed⟩

/-- The message arrives after the events, and the goroutine that takes it crashes. -/
def Crashes (p : Platform) (cfg : NodeConfig) (events : List NodeEvent) (m : SyncHSMsg) : Prop :=
  ∃ node, (nodeMachine p cfg).Run .init (events ++ [.receive m]) node ∧
    (nodeMachine p cfg).enabled node (.work 0 []) ∧ (nodeMachine p cfg).step node (.work 0 []) = none

theorem crashes_of_replay {p : Platform} {cfg : NodeConfig} {events : List NodeEvent} {m : SyncHSMsg}
    (replayed : ((nodeMachine p cfg).replay (events ++ [.receive m]) .init).any (fun node =>
      decide ((nodeMachine p cfg).enabled node (.work 0 []) ∧
        ((nodeMachine p cfg).step node (.work 0 [])).isNone)) = true) : Crashes p cfg events m := by
  obtain ⟨node,run,enabled,crashed⟩ := Guarded.Machine.reaches (fun node : Node =>
    (nodeMachine p cfg).enabled node (.work 0 []) ∧ ((nodeMachine p cfg).step node (.work 0 [])).isNone) replayed
  exact ⟨node,run,enabled,Option.isNone_iff_eq_none.mp crashed⟩

def proposalOn (cert : BlockCertificate) : Proposal :=
  newCandidateProposal transparent (.complete 2 1 true .plain 0) .init [] cert 1 []

/-- A vote without data and a proposal without a block crash a node at any time, and so does
a certificate with a signer and no signature, one for an unknown block, a vote in the name of
an unknown node, and a vote or a block with a short hash; a good vote crashes a node to which
no client has connected. -/
theorem messages_crash :
    Crashes transparent followerOfTwo [] (.vote ⟨none,none⟩) ∧
    Crashes transparent followerOfTwo [] (.vote (voteForLeader 0)) ∧
    Crashes transparent followerOfTwo [.connect] (.vote (voteForLeader 7)) ∧
    Crashes transparent followerOfTwo [.connect] (.prop { proposalOn genesisCert with block := none }) ∧
    Crashes transparent followerOfTwo [.connect]
      (.prop { proposalOn genesisCert with proposeEvidence := Certificate.marshal ⟨[],[],[0]⟩ }) ∧
    Crashes transparent followerOfTwo [.connect]
      (.prop (proposalOn (emptyCertificate (transparent.doHash [1]) 1))) ∧
    Crashes transparent followerOfTwo [.connect] (.vote (signVote transparent (.complete 2 1 true .plain 0) ⟨[5],1,0⟩)) ∧
    Crashes transparent followerOfTwo [.connect]
      (.prop { proposalOn genesisCert with block := some ⟨none,none,[5]⟩ }) := by
  refine ⟨?_,?_,?_,?_,?_,?_,?_,?_⟩
  all_goals exact crashes_of_replay (by decide +kernel)

end ReputationSMR
