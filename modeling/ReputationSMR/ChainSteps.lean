import ReputationSMR.JobCases

/-! What a node does to its chain and its certificates. Four pieces of code extend the
chain; everything else a goroutine does leaves it alone, and only the callback changes
the view or acknowledges a block. -/
namespace ReputationSMR

open Wire FiniteMap

/-- The head advances and the block is stored at the height it carries. -/
def BlockChain.extend (p : Platform) (bc : BlockChain) (b : ExtBlock) : BlockChain :=
  { bc with head := bc.head + 1 }.store p b.getHeight b

/-- The forward with which a follower completes its set and appends the block. -/
def SyncHS.completes (p : Platform) (cfg : NodeConfig) (n : SyncHS) (fprop : Proposal) :
    Option ExtProposal :=
  if n.equivocatingProposalInject then none
  else do
    let ep ← ExtProposal.fromProto p fprop
    let ep2 ← ExtProposal.fromProto p (n.reference fprop)
    if checkForward p cfg n ep = some true ∧ ep2.extBlock.getBlockHash p = ep.extBlock.getBlockHash p ∧
      cfg.pMap.card ≤ size (n.forwardsWith fprop) ∧ cfg.id ≠ n.leader then some ep else none

/-- The empty block on top of the certified head. -/
def SyncHS.nextEmptyBlock (p : Platform) (n : SyncHS) : Option ExtBlock :=
  (n.certMap.lookup n.bc.head).map fun cert => createAnEmptyBlock p [] cert (n.bc.head + 1) emptyExtra

/-- The proposal of a leader on top of the certified head. -/
def SyncHS.nextBlock (p : Platform) (cfg : NodeConfig) (n : SyncHS) : Option ExtBlock :=
  (n.certMap.lookup n.bc.head).map fun cert =>
    candidateBlock p (n.newestCommands cfg) cert (n.bc.head + 1) []

/-- The block with which a job is about to extend the chain. -/
def extension (p : Platform) (cfg : NodeConfig) (n : SyncHS) : Job → Option ExtBlock
  | .round =>
    if cfg.timerMode = .withhold ∧ n.leader % 2 ≠ 0 then n.nextEmptyBlock p
    else if n.leader = cfg.id ∧ cfg.blockSize ≤ n.pendingCommands.length ∧
      ¬(cfg.timerMode = .equivocation ∧ cfg.id % 2 ≠ 0) then n.nextBlock p cfg
    else none
  | .proposeChannel fprop => (n.completes p cfg fprop).map ExtProposal.extBlock
  | .eqEvidenceChannel e =>
    if at2 n.equiproposalMap n.view n.leader ≠ some 1 ∧ isEqpEvidenceValid p cfg n e = some true then
      n.nextEmptyBlock p
    else none
  | _ => none

def NoCert (jobs : List Job) : Prop := ∀ job ∈ jobs, job.storedCert = none

/-- What a job does to the chain and to the certificates. -/
inductive ChainStep (p : Platform) (cfg : NodeConfig) (n : SyncHS) (job : Job) (n' : SyncHS)
    (effect : Effect) : Prop where
  | quiet : n'.bc = n.bc → n'.certMap = n.certMap → NoCert effect.jobs → ChainStep p cfg n job n' effect
  | stored (bc : BlockCertificate) (height : Nat) : job = .addCert bc height → n'.bc = n.bc →
      n'.certMap = n.certMap.insert height bc → NoCert effect.jobs → ChainStep p cfg n job n' effect
  | certified (v : ProtoVote) (d : ProtoVoteData) (bc : BlockCertificate) : job = .voteChannel v →
      Joins p cfg n v d → n'.bc = n.bc → n'.certMap = n.certMap →
      bc.data = ⟨(p.toHash d.blockHash).bytes,d.view,0⟩ →
      effect.jobs = [.addCert bc n.view] → ChainStep p cfg n job n' effect
  | extended (b : ExtBlock) : extension p cfg n job = some b → n'.bc = n.bc.extend p b →
      n'.certMap = n.certMap → NoCert effect.jobs → ChainStep p cfg n job n' effect
  | emptied (b : ExtBlock) : extension p cfg n job = some b → n'.bc = n.bc.extend p b →
      n'.certMap = n.certMap.insert n.view (emptyCertificate (b.getBlockHash p) n.view) →
      NoCert effect.jobs → ChainStep p cfg n job n' effect

structure JobStep (p : Platform) (cfg : NodeConfig) (n : SyncHS) (job : Job) (n' : SyncHS)
    (effect : Effect) : Prop where
  view : n'.view = n.view
  noAck : effect.acks = []
  chain : ChainStep p cfg n job n' effect

section Jobs

variable {p : Platform} {cfg : NodeConfig} {n n' : SyncHS} {effect : Effect} {job : Job}

theorem Effect.none_noCert : NoCert Effect.none.jobs := by simp [NoCert,none]

theorem JobStep.quiet (bc : n'.bc = n.bc) (certMap : n'.certMap = n.certMap) (view : n'.view = n.view)
    (noAck : effect.acks = []) (noCert : NoCert effect.jobs) : JobStep p cfg n job n' effect :=
  ⟨view,noAck,.quiet bc certMap noCert⟩

theorem withhold_step (withhold : cfg.timerMode = .withhold) (odd : n.leader % 2 ≠ 0) :
    JobStep p cfg n .round
      (handleWithholdingProposal p { n with withholdingProposalInject := true }) .none := by
  simp only [handleWithholdingProposal, SyncHS.getCertForBlockIndex]
  split
  next => exact .quiet rfl rfl rfl rfl Effect.none_noCert
  next cert found =>
    have block : extension p cfg n .round =
        some (createAnEmptyBlock p [] cert (n.bc.head + 1) emptyExtra) := by
      simp only [extension]
      rw [if_pos ⟨withhold,odd⟩, SyncHS.nextEmptyBlock, found]
      rfl
    exact ⟨rfl,rfl,.emptied _ block rfl rfl Effect.none_noCert⟩

theorem RoundCase.step (step : RoundCase p cfg n n' effect) : JobStep p cfg n .round n' effect := by
  cases step with
  | idle _ _ _ _ => exact .quiet rfl rfl rfl rfl Effect.none_noCert
  | withholds mode odd => exact withhold_step mode odd
  | proposes _ cert _ leader noWithholding noEquivocation found enough =>
    have block : extension p cfg n .round =
        some (candidateBlock p (n.newestCommands cfg) cert (n.bc.head + 1) []) := by
      simp only [extension]
      rw [if_neg noWithholding, if_pos ⟨leader,enough,noEquivocation⟩]
      simp [SyncHS.nextBlock,found]
    exact ⟨rfl,rfl,.extended _ block rfl rfl (by simp [NoCert,Job.storedCert])⟩
  | equivocates _ _ _ _ | intrudes _ _ _ _ =>
    exact .quiet rfl rfl rfl rfl (by simp [NoCert,Job.storedCert])

theorem completes_of_accepted {fprop : Proposal} {ep : ExtProposal} (accepted : Accepted p cfg n fprop ep)
    (agrees : AgreesWithFirst p n ep) (full : cfg.pMap.card ≤ size (n.forwardsWith fprop))
    (follower : cfg.id ≠ n.leader) : n.completes p cfg fprop = some ep := by
  obtain ⟨unflagged,decoded,checked⟩ := accepted
  obtain ⟨ep2,decoded2,agree⟩ := agrees
  rw [ExtProposal.fromProto_proposal decoded] at decoded2
  simp [SyncHS.completes,unflagged,decoded,decoded2,checked,agree,full,follower]

theorem ForwardStep.step {fprop : Proposal} (step : ForwardStep p cfg n fprop n' effect) :
    JobStep p cfg n (.proposeChannel fprop) n' effect := by
  cases step with
  | flagged _ | refused _ _ _ _ => exact .quiet rfl rfl rfl rfl Effect.none_noCert
  | conflict ep ep2 _ _ _ =>
    split
    next => exact .quiet rfl rfl rfl rfl (by simp [NoCert,Job.storedCert])
    next => exact .quiet rfl rfl rfl rfl Effect.none_noCert
  | counted ep _ _ _ => exact .quiet rfl rfl rfl rfl Effect.none_noCert
  | leads ep _ _ _ _ => exact .quiet rfl rfl rfl rfl (by simp [NoCert,Job.storedCert])
  | follows ep accepted agrees full follower =>
    have block : extension p cfg n (.proposeChannel fprop) = some ep.extBlock := by
      simp [extension,completes_of_accepted accepted agrees full follower]
    exact ⟨rfl,rfl,.extended _ block rfl rfl (by simp [NoCert,Job.storedCert])⟩

theorem VoteStep.step {v : ProtoVote} {order : List Nat} (step : VoteStep p cfg n v order n' effect) :
    JobStep p cfg n (.voteChannel v) n' effect := by
  have bc := step.unread SyncHS.bc fun _ _ _ => rfl
  have certMap := step.unread SyncHS.certMap fun _ _ _ => rfl
  have view := step.unread SyncHS.view fun _ _ _ => rfl
  cases step with
  | foreign d _ _ => exact .quiet rfl rfl rfl rfl (by simp [NoCert,Job.storedCert])
  | dropped d _ _ _ => exact .quiet bc certMap view rfl Effect.none_noCert
  | counted d n' effect joins counted =>
    cases counted with
    | late _ | pooled _ _ _ => exact .quiet bc certMap view rfl Effect.none_noCert
    | certifies _ _ _ =>
      refine ⟨view,rfl,.certified v d _ rfl joins bc certMap ?_ (congrArg (fun w => [Job.addCert _ w]) view)⟩
      exact newCert_data _ _ _

theorem JobCase.step {order : List Nat} (step : JobCase p cfg n order job n' effect) :
    JobStep p cfg n job n' effect := by
  cases step with
  | read _ _ _ step => exact step.step
  | voteHandled _ _ _ step => exact step.step
  | started _ _ step => exact step.step
  | emptied e cert unrecorded valid found =>
    have block : extension p cfg n (.eqEvidenceChannel e) =
        some (createAnEmptyBlock p [] cert (n.bc.head + 1) emptyExtra) := by
      simp only [extension]
      rw [if_pos ⟨unrecorded,valid⟩, SyncHS.nextEmptyBlock, found]
      rfl
    exact ⟨rfl,rfl,.emptied _ block rfl rfl Effect.none_noCert⟩
  | stored bc height => exact ⟨rfl,rfl,.stored bc height rfl rfl rfl Effect.none_noCert⟩
  | _ => exact .quiet rfl rfl rfl rfl (by simp [NoCert,Job.storedCert,Effect.none])

end Jobs

/-! ## The node -/

/-- What an event does to the chain, the certificates, the view, the pending work and the
acknowledgements. -/
inductive NodeStep (p : Platform) (cfg : NodeConfig) (node : Node) : NodeEvent → Node → Prop where
  | outside (e : NodeEvent) (node' : Node) (jobs : List Job) : (∀ i order, e ≠ .work i order) →
      e ≠ .callback → node'.state.bc = node.state.bc → node'.state.certMap = node.state.certMap →
      node'.state.view = node.state.view → node'.pending = node.pending ++ jobs →
      NoCert jobs → node'.acked = node.acked → NodeStep p cfg node e node'
  | worked (index : Nat) (order : List Nat) (job : Job) (n' : SyncHS) (effect : Effect) :
      node.pending[index]? = some job → JobStep p cfg node.state job n' effect →
      NodeStep p cfg node (.work index order) ⟨n',node.pending.eraseIdx index ++ effect.jobs,node.acked⟩
  | calledBack (n' : SyncHS) (effect : Effect) :
      CallbackStep p cfg { node.state with timers := node.state.timers - 1 } n' effect →
      NodeStep p cfg node .callback ⟨n',node.pending,node.acked ++
        effect.acks.map fun b => (node.state.view,b)⟩

theorem protocol_noCert (cfg : NodeConfig) (n : SyncHS) (m : SyncHSMsg) : NoCert (protocol cfg n m) := by
  intro job member
  have network := protocol_fromNetwork member
  cases job <;> first | rfl | contradiction

theorem NodeCase.step {p : Platform} {cfg : NodeConfig} {node node' : Node} {e : NodeEvent}
    {sends : List Outgoing} (step : NodeCase p cfg node e node' sends) : NodeStep p cfg node e node' := by
  cases step with
  | connected => exact .outside _ _ [] nofun nofun rfl rfl rfl (List.append_nil _).symm (by simp [NoCert]) rfl
  | received m => exact .outside _ _ _ nofun nofun rfl rfl rfl rfl (protocol_noCert cfg _ m) rfl
  | commanded cmd n' jobs case =>
    cases case with
    | pooled _ _ _ _ _ rounds =>
      refine .outside _ _ jobs nofun nofun rfl rfl rfl rfl (fun job member => ?_) rfl
      rw [rounds job member]
      rfl
  | worked index order job n' jobs sends found case =>
    exact .worked index order job n' ⟨jobs,sends,[]⟩ found case.step
  | calledBack n' acks case => exact .calledBack n' ⟨[],[],acks⟩ case

theorem nodeMachine_step {p : Platform} {cfg : NodeConfig} {node node' : Node} {e : NodeEvent}
    (moved : (nodeMachine p cfg).step node e = some node') : NodeStep p cfg node e node' := by
  obtain ⟨_,case⟩ := nodeMachine_cases moved
  exact case.step

theorem ChainStep.head_le {p : Platform} {cfg : NodeConfig} {n n' : SyncHS} {job : Job} {effect : Effect}
    (step : ChainStep p cfg n job n' effect) : n.bc.head ≤ n'.bc.head := by
  cases step with
  | quiet bc _ _ | stored _ _ _ bc _ _ | certified _ _ _ _ _ bc _ _ _ => rw [bc]
  | extended b _ bc _ _ | emptied b _ bc _ _ =>
    rw [bc]
    exact Nat.le_succ _

theorem NodeCase.stores {p : Platform} {cfg : NodeConfig} {node node' : Node} {event : NodeEvent}
    {sends : List Outgoing} (case : NodeCase p cfg node event node' sends) (h : Nat) :
    node'.state.bc.blocksByHeight.lookup h = node.state.bc.blocksByHeight.lookup h ∧
        node.state.bc.head ≤ node'.state.bc.head ∨
      ∃ index order job jobs b, event = .work index order ∧ node.pending[index]? = some job ∧ jobs ⊆ node'.pending ∧
        JobCase p cfg node.state order job node'.state ⟨jobs,sends,[]⟩ ∧
        extension p cfg node.state job = some b ∧ b.getHeight = h ∧ node'.state.bc = node.state.bc.extend p b := by
  cases case with
  | connected | received _ => exact Or.inl ⟨rfl,le_rfl⟩
  | commanded _ _ _ case => cases case with | pooled _ _ _ _ _ _ => exact Or.inl ⟨rfl,le_rfl⟩
  | calledBack n' acks case => cases case <;> exact Or.inl ⟨rfl,le_rfl⟩
  | worked index order job n' jobs sends found case =>
    have chain := case.step.chain
    by_cases here : ∃ b, extension p cfg node.state job = some b ∧ b.getHeight = h ∧
        n'.bc = node.state.bc.extend p b
    · obtain ⟨b,extended,height,bc⟩ := here
      exact Or.inr ⟨index,order,job,jobs,b,rfl,found,List.subset_append_right _ _,case,extended,height,bc⟩
    · refine Or.inl ⟨?_,chain.head_le⟩
      cases chain with
      | quiet bc _ _ | stored _ _ _ bc _ _ | certified _ _ _ _ _ bc _ _ _ => exact congrArg (·.blocksByHeight.lookup h) bc
      | extended b extended bc _ _ | emptied b extended bc _ _ =>
        have other : h ≠ b.getHeight := fun height => here ⟨b,extended,height.symm,bc⟩
        rw [bc, BlockChain.extend, BlockChain.store_byHeight, if_neg other]

/-! ## Checks after an empty block -/

section Checks

variable {p : Platform} {cfg : NodeConfig} {n n' : SyncHS} {ep : ExtProposal} {b : ExtBlock}

theorem getCertBenchMark_congr (view : n'.view = n.view) (reputations : n'.reputationMap = n.reputationMap) :
    n'.getCertBenchMark (n'.view - 1) = n.getCertBenchMark (n.view - 1) := by
  rw [SyncHS.getCertBenchMark, SyncHS.getCertBenchMark, view, reputations]

theorem checkProposal_congr (view : n'.view = n.view) (leader : n'.leader = n.leader) (bc : n'.bc = n.bc)
    (reputations : n'.reputationMap = n.reputationMap) : checkProposal p cfg n' ep = checkProposal p cfg n ep := by
  rw [checkProposal, checkProposal, isCertValid, isCertValid, getCertBenchMark_congr view reputations, leader, bc,
    view, reputations]

/-- A certificate stays valid when an empty block is appended: even if the block had the
hash that the certificate names, empty blocks need no votes. -/
theorem isCertValid_extend {cert : BlockCertificate} (single : b.getExtra.length = 1)
    (view : n'.view = n.view) (reputations : n'.reputationMap = n.reputationMap)
    (bc : n'.bc = n.bc.extend p b) (valid : isCertValid p cfg n cert = some true) :
    isCertValid p cfg n' cert = some true := by
  rw [isCertValid] at valid ⊢
  rw [getCertBenchMark_congr view reputations, view, reputations]
  split
  next short => exact absurd valid (by simp [short])
  next whole =>
  rw [if_neg whole] at valid
  split
  next => rfl
  next nonempty =>
    rw [if_neg nonempty] at valid
    rw [bc, BlockChain.extend, BlockChain.store_byHash]
    by_cases same : (cert.getBlockInfo p).1 = b.getBlockHash p
    · rw [if_pos same]
      exact if_pos single
    · rw [if_neg same]
      exact valid

theorem checkProposal_extend (single : b.getExtra.length = 1) (view : n'.view = n.view)
    (leader : n'.leader = n.leader) (reputations : n'.reputationMap = n.reputationMap)
    (bc : n'.bc = n.bc.extend p b) (checked : checkProposal p cfg n ep = some true) :
    checkProposal p cfg n' ep = some true := by
  obtain ⟨hashes,same,key,found,signed,valid⟩ := checkProposal_eq_true.mp checked
  exact checkProposal_eq_true.mpr ⟨hashes,same,key,leader ▸ found,signed,
    isCertValid_extend single view reputations bc valid⟩

theorem checkForward_of_checkProposal (kept : checkProposal p cfg n ep = some true → checkProposal p cfg n' ep = some true)
    (checked : checkForward p cfg n ep = some true) : checkForward p cfg n' ep = some true := by
  rw [checkForward] at checked ⊢
  split at checked
  next => contradiction
  next => contradiction
  next passed =>
    rw [kept passed]
    exact checked

end Checks

end ReputationSMR
