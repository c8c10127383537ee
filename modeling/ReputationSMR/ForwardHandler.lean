import ReputationSMR.Client

/-! What one iteration of `forwardProposalHandler` can do, and the shape of the votes
that follow a complete set of forwards. -/
namespace ReputationSMR

open Wire FiniteMap

def Job.heldForward : Job → Option Proposal
  | .proposeChannel fprop => some fprop
  | _ => none

/-- A vote of the node itself, recorded and on its way to everybody. -/
def SyncHS.voted (cfg : NodeConfig) (n : SyncHS) : SyncHS :=
  { n with voteMap := put2 n.voteMap n.view cfg.id 1 }

theorem castVote_eq (p : Platform) (cfg : NodeConfig) (n : SyncHS) (data : ProtoVoteData) :
    castVote p cfg n data = some (n.voted cfg,
      ⟨[.voteChannel (signVote p cfg data)],[.broadcast (.vote (signVote p cfg data))],[]⟩) := rfl

def voteDataFor (p : Platform) (n : SyncHS) (ep : ExtProposal) : ProtoVoteData :=
  ⟨(ep.extBlock.getBlockHash p).bytes,n.view,ep.proposal.miner⟩

theorem voteForBlock_eq (p : Platform) (cfg : NodeConfig) (n : SyncHS) (ep : ExtProposal) :
    voteForBlock p cfg n ep = some (n.voted cfg,⟨[.voteChannel (signVote p cfg (voteDataFor p n ep))],
      [.broadcast (.vote (signVote p cfg (voteDataFor p n ep)))],[]⟩) := rfl

/-- The proposal passes every check of the handler. -/
structure Accepted (p : Platform) (cfg : NodeConfig) (n : SyncHS) (fprop : Proposal) (ep : ExtProposal) :
    Prop where
  unflagged : n.equivocatingProposalInject = false
  decoded : ExtProposal.fromProto p fprop = some ep
  checked : checkForward p cfg n ep = some true

/-- The proposal that later ones of the view are compared with. -/
def SyncHS.reference (n : SyncHS) (fprop : Proposal) : Proposal :=
  (n.proposalByviewMap.lookup n.view).getD fprop

def SyncHS.remember (n : SyncHS) (fprop : Proposal) : SyncHS :=
  { n with proposalByviewMap := n.proposalByviewMap.insert n.view (n.reference fprop) }

def SyncHS.forwardsWith (n : SyncHS) (fprop : Proposal) : Map Nat Proposal :=
  (row n.fpropMap n.view).insert fprop.forwardSender fprop

def SyncHS.addForward (n : SyncHS) (fprop : Proposal) : SyncHS :=
  { n.remember fprop with
    equivocatingProposalInject := false
    fpropMap := n.fpropMap.insert n.view (n.forwardsWith fprop) }

/-- A follower with a complete set appends the block and records the leader. -/
def SyncHS.addForwardedBlock (p : Platform) (n : SyncHS) (ep : ExtProposal) : SyncHS :=
  (({ n with bc.head := n.bc.head + 1 }.addProposaltoMap).addNewBlock p ep.extBlock).addProposaltoViewMap
    ep.proposal

theorem addForwardedBlock_eq (p : Platform) (n : SyncHS) (ep : ExtProposal) : n.addForwardedBlock p ep =
    { n with
      bc := (n.addForwardedBlock p ep).bc
      proposalMap := (n.addForwardedBlock p ep).proposalMap
      proposalByviewMap := (n.addForwardedBlock p ep).proposalByviewMap } := rfl

/-- The hash agrees with that of the first proposal of the view. -/
def AgreesWithFirst (p : Platform) (n : SyncHS) (ep : ExtProposal) : Prop :=
  ∃ ep2, ExtProposal.fromProto p (n.reference ep.proposal) = some ep2 ∧
    ep2.extBlock.getBlockHash p = ep.extBlock.getBlockHash p

inductive ForwardStep (p : Platform) (cfg : NodeConfig) (n : SyncHS) (fprop : Proposal) :
    SyncHS → Effect → Prop where
  | flagged : n.equivocatingProposalInject = true → ForwardStep p cfg n fprop n .none
  | refused (ep : ExtProposal) : n.equivocatingProposalInject = false →
      ExtProposal.fromProto p fprop = some ep → checkForward p cfg n ep = some false →
      ForwardStep p cfg n fprop n .none
  | conflict (ep ep2 : ExtProposal) : Accepted p cfg n fprop ep →
      ExtProposal.fromProto p (n.reference fprop) = some ep2 →
      ep2.extBlock.getBlockHash p ≠ ep.extBlock.getBlockHash p →
      ForwardStep p cfg n fprop { n.remember fprop with equivocatingProposalInject := true }
        (if cfg.id ≠ n.leader then ⟨[.sendEqProEvidence (n.reference fprop) fprop],[],[]⟩ else .none)
  | counted (ep : ExtProposal) : Accepted p cfg n fprop ep → AgreesWithFirst p n ep →
      size (n.forwardsWith fprop) < cfg.pMap.card →
      ForwardStep p cfg n fprop (n.addForward fprop) .none
  | leads (ep : ExtProposal) : Accepted p cfg n fprop ep → AgreesWithFirst p n ep →
      cfg.pMap.card ≤ size (n.forwardsWith fprop) → cfg.id = n.leader →
      ForwardStep p cfg n fprop ((n.addForward fprop).voted cfg)
        ⟨[.voteChannel (signVote p cfg (voteDataFor p n ep))],
          [.broadcast (.vote (signVote p cfg (voteDataFor p n ep)))],[]⟩
  | follows (ep : ExtProposal) : Accepted p cfg n fprop ep → AgreesWithFirst p n ep →
      cfg.pMap.card ≤ size (n.forwardsWith fprop) → cfg.id ≠ n.leader →
      ForwardStep p cfg n fprop ((n.addForward fprop).addForwardedBlock p ep) ⟨[.vote ep],[],[]⟩

section Inversion

variable {p : Platform} {cfg : NodeConfig} {n n' : SyncHS} {fprop : Proposal} {ep : ExtProposal}
  {effect : Effect}

theorem ExtProposal.fromProto_proposal (decoded : ExtProposal.fromProto p fprop = some ep) :
    ep.proposal = fprop := by
  obtain ⟨_,_,_,_,_,rfl⟩ := ExtProposal.fromProto_eq_some.mp decoded
  rfl

/-- What `ensureBlockIsDelivered` finds is not used. -/
theorem ensureBlockIsDelivered_map {β : Type} {blk : ExtBlock} (whole : p.copies blk.parentField) (out : β) :
    (ensureBlockIsDelivered p n blk).map (fun _ => out) = some out := by
  unfold ensureBlockIsDelivered
  simp only [whole, not_true_eq_false, if_false]
  split
  · rfl
  · split <;> rfl

theorem checkProposal_eq_true : checkProposal p cfg n ep = some true ↔ ep.extBlock.Hashes ∧
    p.toHash ((ep.proposal.block.map ProtoBlock.blockHash).getD []) = ep.extBlock.getBlockHash p ∧
    ∃ key, getPubKeyFromID cfg n.leader = some key ∧
      p.accepts key (marshalHeader ep.proposal.getHeader) ep.proposal.miningProof = true ∧
      isCertValid p cfg n ep.blockCertificate = some true := by
  rw [checkProposal]
  by_cases hashes : ep.extBlock.Hashes
  · by_cases same : p.toHash ((ep.proposal.block.map ProtoBlock.blockHash).getD []) = ep.extBlock.getBlockHash p
    · cases found : getPubKeyFromID cfg n.leader with
      | none => simp [hashes,same]
      | some key =>
        by_cases signed : p.accepts key (marshalHeader ep.proposal.getHeader) ep.proposal.miningProof = true <;>
          simp [hashes,same,signed]
    · simp [hashes,same]
  · simp [hashes]

theorem firstProposal_eq (n : SyncHS) (fprop : Proposal) :
    n.firstProposal fprop = (n.remember fprop,n.reference fprop) := by
  simp only [SyncHS.firstProposal, SyncHS.remember, SyncHS.reference]
  cases found : n.proposalByviewMap.lookup n.view with
  | none => rfl
  | some first =>
    have same : n.proposalByviewMap.insert n.view first = n.proposalByviewMap := by
      apply Finmap.ext_lookup
      intro view
      rw [lookup_insert]
      split
      next here => rw [here, found]
      next => rfl
    simp [same]

theorem acceptForward_eq (same : ep.proposal = fprop) :
    acceptForward p cfg { n.remember fprop with equivocatingProposalInject := false } ep =
      if size (n.forwardsWith fprop) < cfg.pMap.card then some (n.addForward fprop,.none)
      else if cfg.id ≠ n.leader then
        (ensureBlockIsDelivered p ((n.addForward fprop).addForwardedBlock p ep) ep.extBlock).map fun _ =>
          ((n.addForward fprop).addForwardedBlock p ep,⟨[.vote ep],[],[]⟩)
      else some ((n.addForward fprop).voted cfg,⟨[.voteChannel (signVote p cfg (voteDataFor p n ep))],
        [.broadcast (.vote (signVote p cfg (voteDataFor p n ep)))],[]⟩) := by
  subst same
  rfl

theorem acceptForward_cases (accepted : Accepted p cfg n fprop ep) (agrees : AgreesWithFirst p n ep)
    (handled : acceptForward p cfg { n.remember fprop with equivocatingProposalInject := false } ep =
      some (n',effect)) : ForwardStep p cfg n fprop n' effect := by
  rw [acceptForward_eq (ExtProposal.fromProto_proposal accepted.decoded)] at handled
  split at handled
  next short =>
    obtain ⟨rfl,rfl⟩ := Prod.mk.inj (Option.some.inj handled)
    exact .counted ep accepted agrees short
  next full =>
    split at handled
    next follower =>
      obtain ⟨_,_,done⟩ := Option.map_eq_some_iff.mp handled
      obtain ⟨rfl,rfl⟩ := Prod.mk.inj done
      exact .follows ep accepted agrees (Nat.le_of_not_lt full) follower
    next leader =>
      obtain ⟨rfl,rfl⟩ := Prod.mk.inj (Option.some.inj handled)
      exact .leads ep accepted agrees (Nat.le_of_not_lt full) (not_not.mp leader)

theorem forwardProposalHandler_accepts (accepted : Accepted p cfg n fprop ep)
    (agrees : AgreesWithFirst p n ep) : forwardProposalHandler p cfg n fprop =
      acceptForward p cfg { n.remember fprop with equivocatingProposalInject := false } ep := by
  have same := ExtProposal.fromProto_proposal accepted.decoded
  obtain ⟨ep2,decoded,hash⟩ := agrees
  rw [same] at decoded
  simp only [forwardProposalHandler, accepted.unflagged, Bool.false_eq_true, if_false, accepted.decoded,
    accepted.checked, compareForward, same, firstProposal_eq, decoded, hash, ne_eq, not_true_eq_false]

theorem forwardProposalHandler_counts (accepted : Accepted p cfg n fprop ep)
    (agrees : AgreesWithFirst p n ep) (whole : p.copies ep.extBlock.parentField) :
    forwardProposalHandler p cfg n fprop =
      if size (n.forwardsWith fprop) < cfg.pMap.card then some (n.addForward fprop,.none)
      else if cfg.id ≠ n.leader then
        some ((n.addForward fprop).addForwardedBlock p ep,⟨[.vote ep],[],[]⟩)
      else some ((n.addForward fprop).voted cfg,⟨[.voteChannel (signVote p cfg (voteDataFor p n ep))],
        [.broadcast (.vote (signVote p cfg (voteDataFor p n ep)))],[]⟩) := by
  rw [forwardProposalHandler_accepts accepted agrees,
    acceptForward_eq (ExtProposal.fromProto_proposal accepted.decoded), ensureBlockIsDelivered_map whole]

theorem forwardProposalHandler_conflicts {ep2 : ExtProposal} (accepted : Accepted p cfg n fprop ep)
    (decoded : ExtProposal.fromProto p (n.reference fprop) = some ep2)
    (differ : ep2.extBlock.getBlockHash p ≠ ep.extBlock.getBlockHash p) :
    forwardProposalHandler p cfg n fprop = some ({ n.remember fprop with equivocatingProposalInject := true },
      if cfg.id ≠ n.leader then ⟨[.sendEqProEvidence (n.reference fprop) fprop],[],[]⟩ else .none) := by
  have same := ExtProposal.fromProto_proposal accepted.decoded
  simp only [forwardProposalHandler, accepted.unflagged, Bool.false_eq_true, if_false, accepted.decoded,
    accepted.checked, compareForward, same, firstProposal_eq, decoded]
  exact if_pos differ

/-- The handler touches its flag, the proposals and forwards of the view, the chain and the
records of the leader and of its own vote only. -/
theorem ForwardStep.unread {β : Type} (f : SyncHS → β) (step : ForwardStep p cfg n fprop n' effect)
    (unread : ∀ flag firsts forwards credits chain leaders, f { n with
      equivocatingProposalInject := flag, proposalByviewMap := firsts, fpropMap := forwards,
      voteMap := credits, bc := chain, proposalMap := leaders } = f n) : f n' = f n := by
  cases step with
  | flagged _ | refused _ _ _ _ => rfl
  | conflict _ _ _ _ _ => exact unread true _ n.fpropMap n.voteMap n.bc n.proposalMap
  | counted _ _ _ _ => exact unread false _ _ n.voteMap n.bc n.proposalMap
  | leads _ _ _ _ _ => exact unread false _ _ _ n.bc n.proposalMap
  | follows _ _ _ _ _ =>
    rw [addForwardedBlock_eq]
    exact unread false _ _ n.voteMap _ _

theorem forwardProposalHandler_cases
    (handled : forwardProposalHandler p cfg n fprop = some (n',effect)) :
    ForwardStep p cfg n fprop n' effect := by
  simp only [forwardProposalHandler] at handled
  split at handled
  next flagged =>
    obtain ⟨rfl,rfl⟩ := Prod.mk.inj (Option.some.inj handled)
    exact .flagged flagged
  next unflagged =>
    have off : n.equivocatingProposalInject = false := Bool.eq_false_iff.mpr unflagged
    split at handled
    next => contradiction
    next ep decoded =>
      split at handled
      next => contradiction
      next refused =>
        obtain ⟨rfl,rfl⟩ := Prod.mk.inj (Option.some.inj handled)
        exact .refused ep off decoded refused
      next checked =>
        have accepted : Accepted p cfg n fprop ep := ⟨off,decoded,checked⟩
        have same := ExtProposal.fromProto_proposal decoded
        simp only [compareForward, firstProposal_eq, same] at handled
        split at handled
        next => contradiction
        next ep2 decoded2 =>
          split at handled
          next differ =>
            obtain ⟨rfl,rfl⟩ := Prod.mk.inj (Option.some.inj handled)
            exact .conflict ep ep2 accepted decoded2 differ
          next agree =>
            exact acceptForward_cases accepted ⟨ep2,same ▸ decoded2,not_not.mp agree⟩ handled

end Inversion

end ReputationSMR
